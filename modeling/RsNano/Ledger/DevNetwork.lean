import RsNano.Ledger.Constants

/-!
# The dev network

The constants of the dev network, whose genesis key is public, with a few blocks signed by that
key and by the key one. Signature check and work difficulty come from libraries outside the
repository; the functions here return what those return on the blocks of this module, and
reject everything else. The inputs on which results are instantiated are built from these.
-/

namespace RsNano

/-- The public key of the dev genesis key. -/
def devGenesisKey : BitVec 256 := 0xb0311ea55708d6a53c75cdbf88300259c6d018522fe3d4d0a242e431f9e8b6d0

/-- The public key of the private key one. -/
def devKeyOne : BitVec 256 := 0xc969ec348895a49e21824e10e6b829edea50ccc26a83ce8986a3b95d12576058

/-- The genesis block of the dev network. -/
def devGenesisBlock : OpenBlock where
  source := ⟨devGenesisKey⟩
  representative := ⟨devGenesisKey⟩
  account := ⟨devGenesisKey⟩
  signature :=
    0xecda914373a2f0ca1296475baee40500a7f0a7ad72a5a80c81d7fab7f6c802b2cc7db50f5dd0fb25b2ef11761fa7344a158dd5a700b21bd47de5bd0f63153a02
  work := 0x7b42a00ee91d5810
  hash := ⟨0x04270d7f11c4b2b472f2854c5a59f2a7e84226ce9ed799de75744bd7d85fc9d9⟩
  hash_ne_zero := by decide

/-- The genesis account sends one raw to the account of key one. -/
def devSend : StateBlock where
  account := ⟨devGenesisKey⟩
  previous := devGenesisBlock.hash
  representative := ⟨devGenesisKey⟩
  balance := Amount.max - 1
  link := ⟨devKeyOne⟩
  signature :=
    0xd5591a34e10f4a6d9718d176a84591995cc19f7210bb3e27681288a6ebded7c825ed1d1832ec2bd0d9d8324e8755fabf7c87ce9ffffe891c911c74de8b3b1307
  work := 0xb7
  hash := ⟨0x6df3fb2a6cc12c82683dfd62fdabc416f04a728f159a1afad54c6e1955a58783⟩
  hash_ne_zero := by decide

/-- The genesis account raises its balance by one raw, under the link of the first epoch. -/
def devRaise : StateBlock where
  account := ⟨devGenesisKey⟩
  previous := devSend.hash
  representative := ⟨devGenesisKey⟩
  balance := Amount.max
  link := epochV1Link
  signature :=
    0xb8d4ac7b199d2050d8fde983c1fa46b7fc0b31519fb9309384bcd0a70d00190f4f429fe58cd779ad830346a4adbd10dd32eb8846c8f25f0989f786e3b602e207
  work := 0x1a
  hash := ⟨0x3bb26c541c4692356a77085b2fb429f04c9689c7214271a5fc1c73164c0e0bba⟩
  hash_ne_zero := by decide

/-- The account of key one receives the raw. -/
def devOpen : StateBlock where
  account := ⟨devKeyOne⟩
  previous := 0
  representative := ⟨devKeyOne⟩
  balance := 1
  link := devSend.hash.into .link
  signature :=
    0xd4b97dcf6d231b2c00a2eca5ddd63fa792be3e40974577d4bf39ad3b38cf922b8018867f9137e7395c45070f558f016c62dc3f6c5a8dfcf3e4d35eb7368af60d
  work := 0x3a
  hash := ⟨0xa6f3b686df617386a6b558e3ffa910a54ac07a227252d86649800dcfbc96713f⟩
  hash_ne_zero := by decide

/-- The epoch signer opens the account of key one. -/
def devEpochOpen : StateBlock where
  account := ⟨devKeyOne⟩
  previous := 0
  representative := 0
  balance := 0
  link := epochV1Link
  signature :=
    0xbec8fb5af0d525c8bbb866299ea5275f34a58b978498aa097e514ca0214d4b18d382a5ca6baa05676eccec7938b06a3687e7600f08796b28f6fa03c1fde8220f
  work := 0x3a
  hash := ⟨0xad7fa83a0e40fd5ce4caed41337bd7a0a46a9e1f49c89be717686bfe3def9862⟩
  hash_ne_zero := by decide

/-- A legacy send of nothing to the account of key one. -/
def devZeroSend : SendBlock where
  previous := devGenesisBlock.hash
  destination := ⟨devKeyOne⟩
  balance := Amount.max
  signature :=
    0xa2ca75681a5e6381c70443a601fcc4b03dea5cb72f4896e32339941a562a5b92c3c5c0bbd266b393171f921b635f69151e79fc28667612a841da3483e57a0100
  work := 0xb7
  hash := ⟨0xad7582ea86e927c69ad56a10feea6a582154946248c2acc715442cd3dc8d6b4f⟩
  hash_ne_zero := by decide

/-- The account of key one receives the nothing. -/
def devZeroOpen : OpenBlock where
  source := devZeroSend.hash
  representative := ⟨devKeyOne⟩
  account := ⟨devKeyOne⟩
  signature :=
    0xa86244ffc3290f5e6f592e700a4a86685656c67fba1323e78f305749fc4e25458af0cad512553a9fda129774db4382174b1008ee9f919376582acab837f0d70b
  work := 0x3a
  hash := ⟨0x7685fb527f1ef58bee107471978a53ed71e8e5cf9849f87443c099acd4532b32⟩
  hash_ne_zero := by decide

/-- The epoch signer moves the genesis account to the first epoch. -/
def devUpgrade : StateBlock where
  account := ⟨devGenesisKey⟩
  previous := devSend.hash
  representative := ⟨devGenesisKey⟩
  balance := Amount.max - 1
  link := epochV1Link
  signature :=
    0x331fe155fad97002db6cbde41446a447bd7f6193d4b59ed15988b978de614f9d46ba51cd2b1e44fe832b0d093f335b7269553f57e8bf47b48348b60979d45c0b
  work := 0x1a
  hash := ⟨0x926b03eb555100d36d14f1484a79d9c881c800a1ad1f32787ed2951a42ae43d5⟩
  hash_ne_zero := by decide

/-- The genesis account sends one more raw to the account of key one, in the first epoch. -/
def devEpochSend : StateBlock where
  account := ⟨devGenesisKey⟩
  previous := devUpgrade.hash
  representative := ⟨devGenesisKey⟩
  balance := Amount.max - 2
  link := ⟨devKeyOne⟩
  signature :=
    0x11de62b5b900765a7131a29d06cd753aaf9c5b4199e91c631b1721dacbbc59de263a95deeb78fb6554e5851cac0111372bbdb238e8610b2247deedadb62cbd0d
  work := 0x9
  hash := ⟨0xa220fc2614f6c69478c7497d6d06b78de04bf46a765ce182cc2cf8a49f4b7f2c⟩
  hash_ne_zero := by decide

/-- The account of key one sends its raw to the account whose number is the hash of that send. -/
def devLinkedSend : StateBlock where
  account := ⟨devKeyOne⟩
  previous := devOpen.hash
  representative := ⟨devKeyOne⟩
  balance := 0
  link := devEpochSend.hash.into .link
  signature :=
    0x6afe3aee344501e96662ff6bd68df5cfcffac4cbaf1904ed5f9bb02022bd9ff8654f4c56b0a210e108396f8b58fd9f610eb384e0ee55d63dffd34e40a6e5f400
  work := 0x3
  hash := ⟨0xf59f598251c7e467863f27a6b954d37fca75984423b48c099ae2801fac0f3c75⟩
  hash_ne_zero := by decide

/-- The genesis account sends everything to the account of key one. -/
def devSendAll : SendBlock where
  previous := devGenesisBlock.hash
  destination := ⟨devKeyOne⟩
  balance := 0
  signature :=
    0x8d092d0068a248f74eb82d96e3cd2a7d4e65e1fbfd14cce3cc7b3cdecba33ebb8a0312d13d71299b13ba9ab6350e52ea3497107cf7677ddd7481c4bd92dea908
  work := 0xb7
  hash := ⟨0x9444722704b9cb67a071a5b11f255fa4348fe660300516f2bfa2bc739addaf22⟩
  hash_ne_zero := by decide

/-- The account of key one receives everything. -/
def devOpenAll : OpenBlock where
  source := devSendAll.hash
  representative := ⟨devKeyOne⟩
  account := ⟨devKeyOne⟩
  signature :=
    0xdbb8e77ae9dc1809cf35f3493ed09f0122968742eb2115a8a26d9dad79a5e228278a846c409d3c8ced4719587b57545e83c625ee573804fe7d8d8900898e3b0b
  work := 0x3a
  hash := ⟨0x93af2832c519d419ec504c086d8e4ea8b1cba8461d96e3e244a96a3beb482a4f⟩
  hash_ne_zero := by decide

/-- The genesis account raises its balance from zero, under the link of the first epoch. -/
def devRaiseEmpty : StateBlock where
  account := ⟨devGenesisKey⟩
  previous := devSendAll.hash
  representative := ⟨devGenesisKey⟩
  balance := 1
  link := epochV1Link
  signature :=
    0x9ef991a1999df6da59c1678570da3daf580141932a9489330b545e01797f61e632f5381ffeb3ad36c443ebdc60a88b5a91eff0d72909a9985876637ebbcd380f
  work := 0x88
  hash := ⟨0xdf0567cb38fcf2c7a0d50066c2e930024b45d7fd4750930b84aa12fc8085a7d5⟩
  hash_ne_zero := by decide

/-- The genesis account sends the raw it has raised to the account of key one. -/
def devSendRaised : StateBlock where
  account := ⟨devGenesisKey⟩
  previous := devRaiseEmpty.hash
  representative := ⟨devGenesisKey⟩
  balance := 0
  link := ⟨devKeyOne⟩
  signature :=
    0x0945f8888a6eac5f67bb1ddba337eaf5fa29009df1a7865262febb9d383df00096b45bc18d3d2bb7995a395cd10d5fc217387d6e0bc1dcfb8488613562801c0e
  work := 0xc0
  hash := ⟨0xa84f1db9d0d82403d06e9e6f56c94a68d6ff3b8f9a244889c6f7f71440b01ffe⟩
  hash_ne_zero := by decide

/-- The account of key one receives the raw, and its balance wraps to zero. -/
def devReceiveRaised : ReceiveBlock where
  previous := devOpenAll.hash
  source := devSendRaised.hash
  signature :=
    0xcea995f253b0c73fbd455e0a0a5a2c8aca8ec65f65c11bf9b86f474d9c518feaf89fd08a66c717e3694d38e8b317375a9f24e0e47b211edd8ec29481e2dd190d
  work := 0x28
  hash := ⟨0xa683d9a541b4164e4ae3b9e255fc5d7eecfcc71c45a516e8838c32dd8bbd44c7⟩
  hash_ne_zero := by decide

/-- The valid signatures among the blocks of this module. -/
def devSignatures : List (PublicKey × BlockHash × Signature) :=
  [(⟨devGenesisKey⟩, devSend.hash, devSend.signature),
    (⟨devGenesisKey⟩, devRaise.hash, devRaise.signature),
    (⟨devKeyOne⟩, devOpen.hash, devOpen.signature),
    (⟨devGenesisKey⟩, devEpochOpen.hash, devEpochOpen.signature),
    (⟨devGenesisKey⟩, devZeroSend.hash, devZeroSend.signature),
    (⟨devKeyOne⟩, devZeroOpen.hash, devZeroOpen.signature),
    (⟨devGenesisKey⟩, devUpgrade.hash, devUpgrade.signature),
    (⟨devGenesisKey⟩, devEpochSend.hash, devEpochSend.signature),
    (⟨devKeyOne⟩, devLinkedSend.hash, devLinkedSend.signature),
    (⟨devGenesisKey⟩, devSendAll.hash, devSendAll.signature),
    (⟨devKeyOne⟩, devOpenAll.hash, devOpenAll.signature),
    (⟨devGenesisKey⟩, devRaiseEmpty.hash, devRaiseEmpty.signature),
    (⟨devGenesisKey⟩, devSendRaised.hash, devSendRaised.signature),
    (⟨devKeyOne⟩, devReceiveRaised.hash, devReceiveRaised.signature)]

/-- The difficulty of the work of the blocks of this module. -/
def devDifficulty (root : Root) (work : WorkNonce) : ℕ :=
  if (root, work) = (devGenesisBlock.hash.into .root, 0xb7) then 0xfee3e745601d4da4
  else if (root, work) = (devSend.hash.into .root, 0x1a) then 0xff7611c7db5dcd37
  else if (root, work) = (⟨devKeyOne⟩, 0x3a) then 0xfeaff7327362eee9
  else if (root, work) = (devUpgrade.hash.into .root, 0x9) then 0xfe6052d080276773
  else if (root, work) = (devOpen.hash.into .root, 0x3) then 0xff5d34da6da299fe
  else if (root, work) = (devSendAll.hash.into .root, 0x88) then 0xffa1a3f5b1952f9e
  else if (root, work) = (devRaiseEmpty.hash.into .root, 0xc0) then 0xfecbdf74317d4285
  else if (root, work) = (devOpenAll.hash.into .root, 0x28) then 0xfff5d5f53180b988
  else 0

/-- The constants of the dev network. -/
def devConstants : LedgerConstants where
  work :=
    { epoch1 := 0xfe00000000000000
      epoch2 := 0xffc0000000000000
      epoch2Receive := 0xf000000000000000
      difficulty := devDifficulty }
  genesisBlock := devGenesisBlock
  epoch2Signer := ⟨devGenesisKey⟩
  verify := fun key hash signature => (key, hash, signature) ∈ devSignatures
  genesis_account_ne_zero := by decide
  genesis_representative := rfl

end RsNano
