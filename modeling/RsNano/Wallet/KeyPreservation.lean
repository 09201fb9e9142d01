import RsNano.Wallet.KeyOperations

/-!
# What operations do to the keys of one wallet

A wallet is intact if its password gives the wallet key back and the check value belongs to that
key. `WalletStore.Holds` says that the wallet gives a private key for a public key, and
`WalletStore.Grows` describes the operations that add or replace values of one wallet: they keep
it intact, and its keys unless they replace them.
-/

namespace RsNano

open WalletValue WalletStore

/-- What is assumed of the functions from libraries. -/
structure KeyFunctions.Sound (F : KeyFunctions) : Prop where
  decrypt_encrypt : ∀ x key iv, F.decrypt (F.encrypt x key iv) key iv = x
  check_detects : ∀ key key' iv, F.encrypt 0 key iv = F.encrypt 0 key' iv → key = key'
  publicKey_valid : ∀ prv, validPublicKey (F.publicKey prv) = true

namespace WalletStore

variable {F : KeyFunctions} {s s' : WalletStore} {password : String} {wk prv : RawKey}
  {p : PublicKey}

/-- With the given wallet key, the wallet gives this private key for this public key. -/
def Holds (F : KeyFunctions) (s : WalletStore) (wk : RawKey) (p : PublicKey) (prv : RawKey) :
    Prop :=
  s.privateKeyWith F wk p = .ok prv

/-- The check value is that of the wallet key. -/
structure Checked (F : KeyFunctions) (s : WalletStore) (wk : RawKey) : Prop where
  version : s.version = versionCurrent
  check : s.check = F.encrypt 0 wk s.salt.initializationVector

/-- The password gives the wallet key. -/
structure Intact (F : KeyFunctions) (s : WalletStore) (password : String) (wk : RawKey) : Prop
    extends Checked F s wk where
  stored : (s.entryGetRaw walletKeySpecial).key = s.walletKeyMem
  encrypted : s.walletKeyMem =
    F.encrypt wk (F.hashPassword password s.salt) s.salt.initializationVector

theorem comparePublicKey_eq_ok {x : RawKey} :
    comparePublicKey F p x = .ok prv ↔ F.publicKey prv = p ∧ prv = x := by
  rw [comparePublicKey]
  split
  · next hne =>
    constructor
    · intro h
      cases h
    · rintro ⟨hp, rfl⟩
      exact absurd hp hne
  · next heq =>
    constructor
    · intro h
      cases h
      exact ⟨not_not.mp heq, rfl⟩
    · rintro ⟨-, rfl⟩
      rfl

/-- What is needed to give a private key. -/
theorem holds_iff : s.Holds F wk p prv ↔ (s.entryGetRaw p).key ≠ 0 ∧ F.publicKey prv = p ∧
    (((s.entryGetRaw p).keyType = .deterministic ∧ prv = F.deterministicKey (s.seedWith F wk)
        ((s.entryGetRaw p).key.number.setWidth 32)) ∨
      ((s.entryGetRaw p).keyType = .adhoc ∧
        prv = F.decrypt (s.entryGetRaw p).key wk p.initializationVector)) := by
  rw [Holds, privateKeyWith]
  by_cases hzero : (s.entryGetRaw p).key = 0
  · simp [hzero]
  · cases (s.entryGetRaw p).keyType with
    | deterministic | adhoc => simp [hzero, comparePublicKey_eq_ok]
    | unknown => simp [hzero]

/-- The public key of a private key that a wallet gives. -/
theorem Holds.publicKey_eq (h : s.Holds F wk p prv) : F.publicKey prv = p := (holds_iff.mp h).2.1

/-- A wallet gives at most one private key for a public key. -/
theorem Holds.unique {prv' : RawKey} (h : s.Holds F wk p prv) (h' : s.Holds F wk p prv') :
    prv = prv' := by
  cases h.symm.trans h'
  rfl

/-- The values that keys and passwords depend on. -/
def reserved : List PublicKey :=
  [versionSpecial, saltSpecial, walletKeySpecial, checkSpecial, seedSpecial]

/-- A key depends on its own value, on the salt and on the seed. -/
theorem Holds.congr (h : s.Holds F wk p prv)
    (hp : (s'.entryGetRaw p).key = (s.entryGetRaw p).key) (hsalt : s'.salt = s.salt)
    (hseed : (s'.entryGetRaw seedSpecial).key = (s.entryGetRaw seedSpecial).key) :
    s'.Holds F wk p prv := by
  have htype : (s'.entryGetRaw p).keyType = (s.entryGetRaw p).keyType := by
    rw [keyType, keyType, hp]
  have hseedWith : s'.seedWith F wk = s.seedWith F wk := by
    rw [seedWith, seedWith, hsalt, hseed]
  rw [holds_iff] at h ⊢
  rw [hp, htype, hseedWith]
  exact h

/-- The check value depends on the version and the salt. -/
theorem Checked.congr (h : s.Checked F wk)
    (hver : (s'.entryGetRaw versionSpecial).key = (s.entryGetRaw versionSpecial).key)
    (hsalt : s'.salt = s.salt) (hchk : s'.check = s.check) : s'.Checked F wk := by
  refine ⟨?_, ?_⟩
  · rw [WalletStore.version, hver]
    exact h.version
  · rw [hchk, hsalt]
    exact h.check

section

variable (hkey : ∀ q ∈ reserved, (s'.entryGetRaw q).key = (s.entryGetRaw q).key)
  (hmem : s'.walletKeyMem = s.walletKeyMem)

include hkey hmem

/-- Passwords depend on reserved values. -/
theorem Intact.congr (h : s.Intact F password wk) : s'.Intact F password wk := by
  have hsalt : s'.salt = s.salt := hkey saltSpecial (by decide)
  refine ⟨h.toChecked.congr (hkey _ (by decide)) hsalt (hkey checkSpecial (by decide)), ?_, ?_⟩
  · rw [hkey walletKeySpecial (by decide), hmem]
    exact h.stored
  · rw [hmem, hsalt]
    exact h.encrypted

/-- Whether a wallet is unlocked depends on reserved values and on what is in memory. -/
theorem validPassword_congr (hpassword : s'.password = s.password) :
    s'.validPassword F = s.validPassword F := by
  have hsalt : s'.salt = s.salt := hkey saltSpecial (by decide)
  have hchk : s'.check = s.check := hkey checkSpecial (by decide)
  have hwalletKey : s'.walletKey F = s.walletKey F := by
    rw [walletKey, walletKey, hmem, hpassword, hsalt]
  rw [validPassword, validPassword, checkWalletKey, checkWalletKey, hwalletKey, hchk, hsalt]

end

section

variable {v : WalletValue}

theorem entryGetRaw_put_self : (s.entryPutRaw p v).entryGetRaw p = v := by
  rw [entryGetRaw, entryPutRaw, Table.get_put_self, Option.getD_some]

theorem entryGetRaw_put_of_ne {q : PublicKey} (h : q ≠ p) :
    (s.entryPutRaw p v).entryGetRaw q = s.entryGetRaw q := by
  rw [entryGetRaw, entryPutRaw, Table.get_put_of_ne _ _ h, entryGetRaw]

theorem not_mem_reserved (hp : validPublicKey p = true) : p ∉ reserved := by
  intro hmem
  have hlt : ∀ q ∈ reserved, validPublicKey q = false := by decide
  rw [hlt p hmem] at hp
  cases hp

variable (hp : p ∉ reserved)

include hp

theorem key_put : ∀ q ∈ reserved,
    ((s.entryPutRaw p v).entryGetRaw q).key = (s.entryGetRaw q).key := by
  intro q hq
  rw [entryGetRaw_put_of_ne]
  rintro rfl
  exact hp hq

theorem salt_put : (s.entryPutRaw p v).salt = s.salt := key_put hp saltSpecial (by decide)

theorem seedWith_put : (s.entryPutRaw p v).seedWith F wk = s.seedWith F wk := by
  rw [seedWith, seedWith, salt_put hp, key_put hp seedSpecial (by decide)]

theorem validPassword_put : (s.entryPutRaw p v).validPassword F = s.validPassword F :=
  validPassword_congr (key_put hp) rfl rfl

theorem Intact.put (h : s.Intact F password wk) : (s.entryPutRaw p v).Intact F password wk :=
  h.congr (key_put hp) rfl

theorem holds_put_of_ne {q : PublicKey} (hq : q ≠ p) :
    (s.entryPutRaw p v).Holds F wk q prv ↔ s.Holds F wk q prv := by
  have hkey := congrArg key (entryGetRaw_put_of_ne (s := s) (v := v) hq)
  have hseed := key_put (s := s) (v := v) hp seedSpecial (by decide)
  exact ⟨fun h => h.congr hkey.symm (salt_put hp).symm hseed.symm,
    fun h => h.congr hkey (salt_put hp) hseed⟩

end

/-- The wallet key of an unlocked wallet is the true one. -/
theorem Checked.walletKey_eq (h : s.Checked F wk) (hF : F.Sound)
    (hvalid : s.validPassword F = true) : s.walletKey F = wk := by
  have hchk := of_decide_eq_true hvalid
  exact hF.check_detects _ _ _ (hchk.symm.trans h.check)

/-- A wallet has one wallet key. -/
theorem Checked.unique {wk' : RawKey} (h : s.Checked F wk) (hF : F.Sound) (h' : s.Checked F wk') :
    wk = wk' :=
  hF.check_detects _ _ _ (h.check.symm.trans h'.check)

theorem fetch_eq_ok : s.fetch F p = .ok prv ↔
    s.validPassword F = true ∧ s.Holds F (s.walletKey F) p prv := by
  rw [fetch]
  split
  · next hvalid => simp [hvalid, Holds]
  · next hvalid => simp [hvalid]

/-! ### Values of keys -/

/-- A ciphertext that cannot be taken for a marker. -/
def Distinct (F : KeyFunctions) (wk prv : RawKey) : Prop :=
  2 ^ 64 ≤ (F.encrypt prv wk (F.publicKey prv).initializationVector).number.toNat

instance : Decidable (Distinct F wk prv) := by
  unfold Distinct
  infer_instance

/-- An ad-hoc key can be given back. -/
theorem holds_adhoc (hF : F.Sound) (hd : Distinct F wk prv) :
    (s.entryPutRaw (F.publicKey prv)
      ⟨F.encrypt prv wk (F.publicKey prv).initializationVector, 0⟩).Holds F wk
        (F.publicKey prv) prv := by
  rw [Distinct] at hd
  rw [holds_iff, entryGetRaw_put_self]
  refine ⟨?_, rfl, .inr ⟨if_pos (lt_of_lt_of_le (by decide) hd), (hF.decrypt_encrypt _ _ _).symm⟩⟩
  intro hzero
  change F.encrypt prv wk _ = 0 at hzero
  rw [hzero] at hd
  exact absurd hd (by decide)

theorem toNat_marker (index : BitVec 32) :
    (marker index).key.number.toNat = 2 ^ 32 + index.toNat := by
  exact Nat.mod_eq_of_lt (by omega)

theorem keyType_marker (index : BitVec 32) : (marker index).keyType = .deterministic := by
  have hmarker := toNat_marker index
  rw [keyType, if_neg (by omega), if_pos (by omega)]

/-- A deterministic key can be given back. -/
theorem holds_marker {index : BitVec 32} (hp : p ∉ reserved)
    (hkey : F.publicKey (F.deterministicKey (s.seedWith F wk) index) = p) :
    (s.entryPutRaw p (.marker index)).Holds F wk p
      (F.deterministicKey (s.seedWith F wk) index) := by
  have hmarker := toNat_marker index
  have hidx : (marker index).key.number.setWidth 32 = index := by
    apply BitVec.eq_of_toNat_eq
    rw [BitVec.toNat_setWidth]
    omega
  rw [holds_iff, entryGetRaw_put_self, seedWith_put hp, hidx]
  refine ⟨?_, hkey, .inl ⟨keyType_marker index, rfl⟩⟩
  intro hzero
  rw [hzero] at hmarker
  change 0 = 2 ^ 32 + index.toNat at hmarker
  omega

/-! ### Operations on one wallet -/

/-- The wallet stays intact, keeps its keys unless they are replaced by the given new ones, and
gets no other keys. -/
structure Grows (F : KeyFunctions) (s s' : WalletStore) (password : String) (wk : RawKey)
    (new : PublicKey → RawKey → Prop) : Prop where
  intact : s'.Intact F password wk
  keeps : ∀ p prv, s.Holds F wk p prv → (∀ prv', new p prv' → prv' = prv) → s'.Holds F wk p prv
  only : ∀ p prv, s'.Holds F wk p prv → s.Holds F wk p prv ∨ new p prv

/-- No key has the public key of a value that belongs to the wallet itself. -/
theorem Holds.ne_special (h : s.Holds F wk p prv) (hF : F.Sound) {q : PublicKey}
    (hq : validPublicKey q = false) : p ≠ q := by
  rintro rfl
  have hvalid := hF.publicKey_valid prv
  rw [h.publicKey_eq] at hvalid
  cases hq.symm.trans hvalid

/-- The keys of the wallet do not change where no value but the wallet key does. -/
theorem Grows.of_same (hF : F.Sound) (hintact : s'.Intact F password wk)
    (hkey : ∀ q, q ≠ walletKeySpecial → (s'.entryGetRaw q).key = (s.entryGetRaw q).key) :
    Grows F s s' password wk fun _ _ => False := by
  have hsalt : s'.salt = s.salt := hkey saltSpecial (by decide)
  have hseed := hkey seedSpecial (by decide)
  refine ⟨hintact, fun q prv h _ => ?_, fun q prv h => .inl ?_⟩
  · exact h.congr (hkey q (h.ne_special hF (by decide))) hsalt hseed
  · exact h.congr (hkey q (h.ne_special hF (by decide))).symm hsalt.symm hseed.symm

/-- One growth after another. -/
theorem Grows.trans {s1 s2 : WalletStore} {old : String} {new new' : PublicKey → RawKey → Prop}
    (h : Grows F s s1 old wk new) (h' : Grows F s1 s2 password wk new') :
    Grows F s s2 password wk fun p prv => new p prv ∨ new' p prv := by
  refine ⟨h'.intact, fun p prv hprv hnew => ?_, fun p prv hprv => ?_⟩
  · exact h'.keeps p prv (h.keeps p prv hprv fun x hx => hnew x (.inl hx))
      fun x hx => hnew x (.inr hx)
  · rcases h'.only p prv hprv with hold | hn
    · exact (h.only p prv hold).imp_right .inl
    · exact .inr (.inr hn)

/-- A growth by at most more keys. -/
theorem Grows.mono {new new' : PublicKey → RawKey → Prop} (h : Grows F s s' password wk new)
    (hnew : ∀ p prv, new p prv → new' p prv) : Grows F s s' password wk new' :=
  ⟨h.intact, fun p prv hprv hn => h.keeps p prv hprv fun x hx => hn x (hnew p x hx),
    fun p prv hprv => (h.only p prv hprv).imp_right (hnew p prv)⟩

/-- The wallet key encrypted by a new password. -/
theorem Checked.of_encrypted (h : s.Checked F wk) {new : String}
    (hkey : ∀ q, q ≠ walletKeySpecial → (s'.entryGetRaw q).key = (s.entryGetRaw q).key)
    (hst : (s'.entryGetRaw walletKeySpecial).key = s'.walletKeyMem)
    (hmem : s'.walletKeyMem = F.encrypt wk (F.hashPassword new s.salt)
      s.salt.initializationVector) : s'.Intact F new wk := by
  have hsalt : s'.salt = s.salt := hkey saltSpecial (by decide)
  refine ⟨h.congr (hkey _ (by decide)) hsalt (hkey checkSpecial (by decide)), hst, ?_⟩
  rw [hmem, hsalt]

/-- A new password encrypts the same wallet key. -/
theorem Checked.rekey (h : s.Checked F wk) (hF : F.Sound) {new : String}
    (hrekey : s.rekey F new = .ok s') : Grows F s s' new wk fun _ _ => False := by
  rw [WalletStore.rekey] at hrekey
  split at hrekey
  · next hvalid =>
    cases hrekey
    have hkey : ∀ v q, q ≠ walletKeySpecial →
        ((s.entryPutRaw walletKeySpecial v).entryGetRaw q).key = (s.entryGetRaw q).key :=
      fun v q hq => congrArg key (entryGetRaw_put_of_ne hq)
    refine .of_same hF (h.of_encrypted (hkey _) ?_ ?_) (hkey _)
    · exact congrArg key entryGetRaw_put_self
    · rw [h.walletKey_eq hF hvalid]
      rfl
  · cases hrekey

/-- A wallet that has a zero password gets the empty one. -/
theorem rekey_of_enterInitialPassword (hzero : s.password = 0) (hvalid : s.validPassword F = true)
    (henter : s.enterInitialPassword F = .ok s') : s.rekey F "" = .ok s' := by
  rw [enterInitialPassword, if_pos hzero] at henter
  split at henter
  · next s1 hrekey =>
    cases henter
    exact hrekey
  · next hrekey =>
    rw [rekey, if_pos hvalid] at hrekey
    cases hrekey

section

variable (h : s.Intact F password wk) (hF : F.Sound)
    (hvalid : s.validPassword F = true)

include h

namespace Intact

/-- Passwords in memory are no part of the table. -/
theorem withPassword (x : RawKey) :
    ({ s with password := x } : WalletStore).Intact F password wk :=
  ⟨⟨h.version, h.check⟩, h.stored, h.encrypted⟩

/-- Trying a password on an intact wallet only changes the password in memory. -/
theorem attemptPassword_eq (attempt : String) :
    ∃ valid, s.attemptPassword F attempt =
      .ok ({ s with password := s.deriveKey F attempt }, valid) := by
  refine ⟨_, if_neg ?_⟩
  rintro ⟨-, hver⟩
  exact hver h.version

/-- A wallet that is opened again is as intact as before. -/
theorem reopen : s.reopen.Intact F password wk :=
  ⟨⟨h.version, h.check⟩, rfl, h.stored.trans h.encrypted⟩

/-- A value that gives a key replaces what was there. -/
theorem grows_put (hp : p ∉ reserved) {v : WalletValue}
    (hv : (s.entryPutRaw p v).Holds F wk p prv) :
    Grows F s (s.entryPutRaw p v) password wk fun q x => q = p ∧ x = prv := by
  refine ⟨h.put hp, fun q x hx hnew => ?_, fun q x hx => ?_⟩
  · by_cases hq : q = p
    · rw [hq, ← hnew prv ⟨hq, rfl⟩]
      exact hv
    · exact (holds_put_of_ne hp hq).mpr hx
  · by_cases hq : q = p
    · rw [hq] at hx
      exact .inr ⟨hq, hx.unique hv⟩
    · exact .inl ((holds_put_of_ne hp hq).mp hx)

/-- A value under a public key that no key in the wallet has. -/
theorem grows_put_none (hp : p ∉ reserved) {v : WalletValue}
    (hnone : ∀ x, ¬ s.Holds F wk p x) (hv : ∀ x, ¬ (s.entryPutRaw p v).Holds F wk p x) :
    Grows F s (s.entryPutRaw p v) password wk fun _ _ => False := by
  refine ⟨h.put hp, fun q x hx _ => ?_, fun q x hx => .inl ?_⟩
  · have hq : q ≠ p := by
      rintro rfl
      exact hnone x hx
    exact (holds_put_of_ne hp hq).mpr hx
  · have hq : q ≠ p := by
      rintro rfl
      exact hv x hx
    exact (holds_put_of_ne hp hq).mp hx

include hF

/-- The password of a wallet opens it. -/
theorem validPassword :
    ({ s with password := s.deriveKey F password } : WalletStore).validPassword F = true := by
  have hkey : ({ s with password := s.deriveKey F password } : WalletStore).walletKey F = wk := by
    change F.decrypt s.walletKeyMem (F.hashPassword password s.salt) s.salt.initializationVector =
      wk
    rw [h.encrypted, hF.decrypt_encrypt]
  refine decide_eq_true ?_
  rw [hkey]
  exact h.check

/-- A value of the wallet itself on which no key depends. -/
theorem grows_put_special (hp : p ∉ reserved) (hspecial : validPublicKey p = false)
    (v : WalletValue) : Grows F s (s.entryPutRaw p v) password wk fun _ _ => False :=
  h.grows_put_none hp (fun _ hx => hx.ne_special hF hspecial rfl)
    fun _ hx => hx.ne_special hF hspecial rfl

/-- The password in memory is no part of the keys. -/
theorem grows_password (x : RawKey) :
    Grows F s { s with password := x } password wk fun _ _ => False :=
  .of_same hF (h.withPassword x) fun _ _ => rfl

/-- Entering the initial password: the wallet gets the empty password if it had none. -/
theorem enterInitialPassword (henter : s.enterInitialPassword F = .ok s') (hzero : s.password = 0) :
    Grows F s s' (if s.validPassword F then "" else password) wk fun _ _ => False := by
  by_cases hvalid : s.validPassword F = true
  · rw [if_pos hvalid]
    exact h.rekey hF (rekey_of_enterInitialPassword hzero hvalid henter)
  · obtain ⟨valid, hatt⟩ := h.attemptPassword_eq ""
    rw [WalletStore.enterInitialPassword, if_pos hzero, WalletStore.rekey, if_neg hvalid] at henter
    rw [hatt] at henter
    cases henter
    rw [if_neg hvalid]
    exact h.grows_password hF _

/-- Watching accounts for which the wallet has no key. -/
theorem insertWatchAll {accounts : List PublicKey} (hnone : ∀ p ∈ accounts, ∀ x, ¬ s.Holds F wk p x)
    (hins : WalletKeys.insertWatchAll accounts s = .ok s') :
    Grows F s s' password wk fun _ _ => False := by
  induction accounts generalizing s with
  | nil =>
    cases hins
    exact .of_same hF h fun _ _ => rfl
  | cons account accounts ih =>
    rw [WalletKeys.insertWatchAll, bind_eq_ok] at hins
    obtain ⟨s1, hs1, hins⟩ := hins
    rw [insertWatch] at hs1
    split at hs1
    · next hvalid =>
      cases hs1
      have hfst : Grows F s (s.entryPutRaw account ⟨0, 0⟩) password wk fun _ _ => False := by
        refine h.grows_put_none (not_mem_reserved hvalid) (hnone account (by simp)) fun x hx => ?_
        have hzero := (holds_iff.mp hx).1
        rw [entryGetRaw_put_self] at hzero
        exact hzero rfl
      refine (hfst.trans (ih hfst.intact (fun p hp x hx => ?_) hins)).mono
        fun _ _ h => h.elim id id
      rcases hfst.only p x hx with hold | hfalse
      · exact hnone p (List.mem_cons_of_mem _ hp) x hold
      · exact hfalse
    · cases hs1

/-- Changing the work that is stored with a key. -/
theorem workPut (q : PublicKey) (work : WorkNonce) :
    Grows F s (s.workPut q work) password wk fun _ _ => False := by
  have hkey : ∀ r, ((s.workPut q work).entryGetRaw r).key = (s.entryGetRaw r).key := by
    intro r
    by_cases hr : r = q
    · rw [hr, WalletStore.workPut, entryGetRaw_put_self]
    · rw [WalletStore.workPut, entryGetRaw_put_of_ne hr]
  exact .of_same hF (h.congr (fun r _ => hkey r) rfl) fun r _ => hkey r

include hvalid

/-- Inserting an ad-hoc key into an unlocked wallet. -/
theorem insertAdhoc (hd : Distinct F wk prv) :
    Grows F s (s.insertAdhoc F prv).1 password wk fun q x => q = F.publicKey prv ∧ x = prv := by
  have hp := not_mem_reserved (hF.publicKey_valid prv)
  rw [WalletStore.insertAdhoc, h.walletKey_eq hF hvalid]
  exact h.grows_put hp (holds_adhoc hF hd)

/-- The ad-hoc key is in the wallet afterwards. -/
theorem holds_insertAdhoc (hd : Distinct F wk prv) :
    (s.insertAdhoc F prv).1.Holds F wk (F.publicKey prv) prv := by
  rw [WalletStore.insertAdhoc, h.walletKey_eq hF hvalid]
  exact holds_adhoc hF hd

/-- Inserting a deterministic key into an unlocked wallet. -/
theorem deterministicInsertAt (index : BitVec 32) :
    Grows F s (s.deterministicInsertAt F index).1 password wk fun q x =>
      q = F.publicKey (s.deterministicKey F index) ∧ x = s.deterministicKey F index := by
  have hp := not_mem_reserved (hF.publicKey_valid (s.deterministicKey F index))
  have hkey : s.deterministicKey F index = F.deterministicKey (s.seedWith F wk) index := by
    rw [deterministicKey, seed, h.walletKey_eq hF hvalid]
  refine h.grows_put hp ?_
  rw [hkey]
  exact holds_marker (hkey ▸ hp) rfl

/-- Inserting the next deterministic key. -/
theorem deterministicInsert {fuel : ℕ} {result : WalletStore × PublicKey}
    (hins : s.deterministicInsert F fuel = .ok result) :
    ∃ index, s.nextIndex F fuel s.deterministicIndexGet = .ok index ∧
      Grows F s result.1 password wk fun q x => q = F.publicKey (s.deterministicKey F index) ∧
        x = s.deterministicKey F index := by
  rw [WalletStore.deterministicInsert, bind_eq_ok] at hins
  obtain ⟨index, hnext, hres⟩ := hins
  cases hres
  have hgrows := h.deterministicInsertAt hF hvalid index
  have hidx := hgrows.intact.grows_put_special hF (p := deterministicIndexSpecial) (by decide)
    (by decide) ⟨⟨(index + 1).setWidth 256⟩, 0⟩
  exact ⟨index, hnext, (hgrows.trans hidx).mono fun _ _ h => h.elim id False.elim⟩

/-- Importing keys into an unlocked wallet. -/
theorem importKeys {keys : List (PublicKey × RawKey)}
    (hkeys : ∀ k ∈ keys, F.publicKey k.2 = k.1 ∧ k.2 ≠ 0 ∧ Distinct F wk k.2) :
    Grows F s (keys.foldl (fun s k => s.importKey F k.1 k.2) s) password wk
      fun p prv => (p, prv) ∈ keys := by
  induction keys generalizing s with
  | nil => exact (Grows.of_same hF h fun _ _ => rfl).mono fun _ _ h => h.elim
  | cons k keys ih =>
    obtain ⟨hp, hzero, hd⟩ := hkeys k (by simp)
    have himp : s.importKey F k.1 k.2 = (s.insertAdhoc F k.2).1 := if_pos hzero
    have hfst := h.insertAdhoc hF hvalid hd
    have hvalid' : (s.insertAdhoc F k.2).1.validPassword F = true :=
      (validPassword_put (not_mem_reserved (hF.publicKey_valid k.2))).trans hvalid
    rw [List.foldl_cons, himp]
    refine (hfst.trans (ih hfst.intact hvalid' fun x hx => hkeys x (by simp [hx]))).mono ?_
    rintro p prv (⟨rfl, rfl⟩ | hmem)
    · rw [hp]
      exact List.mem_cons_self
    · exact List.mem_cons_of_mem _ hmem

end Intact

end

section

/-- The values that are left when one is erased. -/
theorem entryGetRaw_del {q : PublicKey} (hq : q ≠ p) :
    ({ s with entries := s.entries.del p } : WalletStore).entryGetRaw q = s.entryGetRaw q := by
  rw [entryGetRaw, entryGetRaw, Table.get_del_of_ne _ hq]

variable (hp : p ∉ reserved)

include hp

theorem key_del : ∀ q ∈ reserved,
    (({ s with entries := s.entries.del p } : WalletStore).entryGetRaw q).key =
      (s.entryGetRaw q).key := by
  intro q hq
  rw [entryGetRaw_del]
  rintro rfl
  exact hp hq

theorem validPassword_del :
    ({ s with entries := s.entries.del p } : WalletStore).validPassword F = s.validPassword F :=
  validPassword_congr (key_del hp) rfl rfl

theorem Intact.del (h : s.Intact F password wk) :
    ({ s with entries := s.entries.del p } : WalletStore).Intact F password wk :=
  h.congr (key_del hp) rfl

/-- The keys that are left. -/
theorem holds_del {q : PublicKey} :
    ({ s with entries := s.entries.del p } : WalletStore).Holds F wk q prv ↔
      q ≠ p ∧ s.Holds F wk q prv := by
  have hsalt : ({ s with entries := s.entries.del p } : WalletStore).salt = s.salt :=
    key_del hp saltSpecial (by decide)
  have hseed := key_del (s := s) hp seedSpecial (by decide)
  constructor
  · intro h
    have hq : q ≠ p := by
      rintro rfl
      have hzero := (holds_iff.mp h).1
      rw [entryGetRaw, Table.get_del_self] at hzero
      exact hzero rfl
    exact ⟨hq, h.congr (congrArg key (entryGetRaw_del hq)).symm hsalt.symm hseed.symm⟩
  · rintro ⟨hq, h⟩
    exact h.congr (congrArg key (entryGetRaw_del hq)) hsalt hseed

end

/-- Clearing markers keeps the other values. -/
theorem entryGetRaw_deterministicClear (hp : p ≠ deterministicIndexSpecial)
    (htype : (s.entryGetRaw p).keyType ≠ .deterministic) :
    s.deterministicClear.entryGetRaw p = s.entryGetRaw p := by
  rw [deterministicClear, deterministicIndexSet, entryGetRaw_put_of_ne hp, entryGetRaw, entryGetRaw]
  cases hget : s.entries.get p with
  | none =>
    have hnone : (s.entries.retain fun _ value => value.keyType ≠ .deterministic).get p = none := by
      rw [Option.eq_none_iff_forall_not_mem]
      intro v hv
      cases hget.symm.trans (Table.get_retain_eq_some.mp hv).1
    rw [hnone]
  | some v =>
    rw [entryGetRaw, hget] at htype
    rw [Table.get_retain_eq_some.mpr ⟨hget, decide_eq_true htype⟩]

/-- The values drawn for a new wallet that its password depends on do not look like markers. -/
def Proper (F : KeyFunctions) (r : WalletSecrets) : Prop :=
  (WalletValue.mk r.salt 0).keyType ≠ .deterministic ∧
    (WalletValue.mk (F.encrypt 0 r.walletKey r.salt.initializationVector) 0).keyType ≠
      .deterministic

/-- What is left of the first values of a new wallet. -/
theorem entryGetRaw_new {r : WalletSecrets} (hseed : p ≠ seedSpecial)
    (hidx : p ≠ deterministicIndexSpecial)
    (htype : ((initial F r).entryGetRaw p).keyType ≠ .deterministic) :
    (new F r).entryGetRaw p = (initial F r).entryGetRaw p := by
  rw [new, deterministicIndexSet, entryGetRaw_put_of_ne hidx, setSeed,
    entryGetRaw_deterministicClear hidx]
  · exact entryGetRaw_put_of_ne hseed
  · rw [entryGetRaw_put_of_ne hseed]
    exact htype

/-- A new wallet has a zero password and no keys. -/
theorem new_spec {r : WalletSecrets} (hF : F.Sound) (hr : Proper F r) :
    (new F r).Checked F r.walletKey ∧ (new F r).validPassword F = true ∧
      ∀ wk p prv, ¬ (new F r).Holds F wk p prv := by
  have hver : (new F r).entryGetRaw versionSpecial = ⟨⟨BitVec.ofNat 256 versionCurrent⟩, 0⟩ := by
    rw [entryGetRaw_new (by decide) (by decide)]
    · rfl
    · change (WalletValue.mk ⟨BitVec.ofNat 256 versionCurrent⟩ 0).keyType ≠ .deterministic
      decide
  have hsalt : (new F r).salt = r.salt := by
    rw [salt, entryGetRaw_new (by decide) (by decide)]
    · rfl
    · exact hr.1
  have hchk : (new F r).check = F.encrypt 0 r.walletKey r.salt.initializationVector := by
    rw [check, entryGetRaw_new (by decide) (by decide)]
    · rfl
    · exact hr.2
  have hkey : (new F r).walletKey F = r.walletKey := by
    rw [walletKey, hsalt]
    exact hF.decrypt_encrypt _ _ _
  refine ⟨⟨?_, ?_⟩, ?_, ?_⟩
  · rw [version, hver]
    rfl
  · rw [hchk, hsalt]
  · rw [validPassword, hkey]
    refine decide_eq_true ?_
    rw [hchk, hsalt]
  · intro wk p prv h
    have hne : ∀ q, validPublicKey q = false → p ≠ q := fun q hq => h.ne_special hF hq
    have hinitial : (initial F r).entryGetRaw p = default := by
      rw [initial, entryGetRaw_put_of_ne (hne _ (by decide)),
        entryGetRaw_put_of_ne (hne _ (by decide)), entryGetRaw_put_of_ne (hne _ (by decide)),
        entryGetRaw_put_of_ne (hne _ (by decide)), entryGetRaw_put_of_ne (hne _ (by decide))]
      rfl
    have hnew : (new F r).entryGetRaw p = default := by
      rw [entryGetRaw_new (hne _ (by decide)) (hne _ (by decide)), hinitial]
      rw [hinitial]
      decide
    have hzero := (holds_iff.mp h).1
    rw [hnew] at hzero
    exact hzero rfl

end WalletStore

end RsNano
