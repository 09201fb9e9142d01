import RsNano.Wallet.KeyPreservation

/-!
# No operation loses a key

`WalletKeys.Held` says that some intact wallet holds a private key for a public key. Operations
on one wallet keep what is held if the keys they add contradict no other wallet; moving keys adds
to one wallet what it takes from another.

Three operations lose keys all the same. Watching an account overwrites its private key, moving
keys of a wallet to itself erases them, and importing into a locked wallet encrypts with a wrong
key. `WalletKeys.Careful` excludes these, and coincidences that the library functions make
unlikely: a ciphertext that looks like a marker, and two private keys with one public key.
-/

namespace RsNano.WalletKeys

open WalletStore Table

variable {F : KeyFunctions} {w w' : WalletKeys} {id : WalletId} {s s' : WalletStore} {wk : RawKey}
  {password : String} {p : PublicKey} {prv : RawKey}

/-- Some intact wallet holds this private key for this public key. -/
def Held (F : KeyFunctions) (w : WalletKeys) (p : PublicKey) (prv : RawKey) : Prop :=
  ∃ id s wk, w.stores.get id = some s ∧ s.Intact F (w.passwords id) wk ∧ s.Holds F wk p prv

/-- Every wallet is intact, and no two wallets hold different private keys for a public key. -/
structure Coherent (F : KeyFunctions) (w : WalletKeys) : Prop where
  intact : ∀ id s, w.stores.get id = some s → ∃ wk, s.Intact F (w.passwords id) wk
  agree : ∀ p prv prv', w.Held F p prv → w.Held F p prv' → prv = prv'

/-- What an operation may do: the wallets stay coherent and lose no key. -/
structure Preserves (F : KeyFunctions) (w w' : WalletKeys) : Prop where
  coherent : w'.Coherent F
  held : ∀ p prv, w.Held F p prv → w'.Held F p prv

/-- The wallets with a changed wallet, and its password. -/
abbrev putWith (w : WalletKeys) (id : WalletId) (s : WalletStore) (password : String) :
    WalletKeys :=
  (w.put id s).notePassword id password

/-- The wallet is intact and holds this private key for this public key. -/
def HeldBy (F : KeyFunctions) (w : WalletKeys) (id : WalletId) (p : PublicKey) (prv : RawKey) :
    Prop :=
  ∃ s wk, w.stores.get id = some s ∧ s.Intact F (w.passwords id) wk ∧ s.Holds F wk p prv

theorem heldBy_putWith_self : (w.putWith id s' password).HeldBy F id p prv ↔
    ∃ wk, s'.Intact F password wk ∧ s'.Holds F wk p prv := by
  simp [HeldBy, putWith, put, notePassword]

theorem heldBy_putWith_of_ne {id' : WalletId} (hid : id' ≠ id) :
    (w.putWith id s' password).HeldBy F id' p prv ↔ w.HeldBy F id' p prv := by
  simp [HeldBy, putWith, put, notePassword, hid, get_put_of_ne _ _ hid]

/-- What is held after a wallet has changed is held by it or by another wallet. -/
theorem held_putWith : (w.putWith id s' password).Held F p prv ↔
    (∃ wk, s'.Intact F password wk ∧ s'.Holds F wk p prv) ∨
      ∃ id', id' ≠ id ∧ w.HeldBy F id' p prv := by
  constructor
  · rintro ⟨id', h⟩
    by_cases hid : id' = id
    · exact .inl (heldBy_putWith_self.mp (hid ▸ h))
    · exact .inr ⟨id', hid, (heldBy_putWith_of_ne hid).mp h⟩
  · rintro (h | ⟨id', hid, h⟩)
    · exact ⟨id, heldBy_putWith_self.mpr h⟩
    · exact ⟨id', (heldBy_putWith_of_ne hid).mpr h⟩

theorem Preserves.trans {w1 w2 : WalletKeys} (h : Preserves F w w1) (h' : Preserves F w1 w2) :
    Preserves F w w2 :=
  ⟨h'.coherent, fun p prv hheld => h'.held p prv (h.held p prv hheld)⟩

theorem put_eq_putWith (w : WalletKeys) (id : WalletId) (s : WalletStore) :
    w.put id s = w.putWith id s (w.passwords id) := by
  have hpasswords : Function.update w.passwords id (w.passwords id) = w.passwords :=
    Function.update_eq_self id w.passwords
  rw [putWith, notePassword, put, hpasswords]

theorem whenUnlocked_eq_ok {f : WalletStore → Except WalletPanic (Except WalletError WalletStore)} :
    whenUnlocked F s f = .ok (.ok s') ↔ s.validPassword F = true ∧ f s = .ok (.ok s') := by
  rw [whenUnlocked]
  split
  · next h => simp [h]
  · next h =>
    constructor
    · intro h'
      cases h'
    · rintro ⟨h', -⟩
      exact absurd h' h

/-- Every imported key belongs to its public key. -/
theorem publicKey_of_importedKeys {accounts : List PublicKey} {keys : List (PublicKey × RawKey)}
    (himp : importedKeys F s accounts = .ok keys) : ∀ k ∈ keys, F.publicKey k.2 = k.1 := by
  induction accounts generalizing keys with
  | nil =>
    cases himp
    simp
  | cons account accounts ih =>
    rw [importedKeys, List.mapM_cons] at himp
    obtain ⟨k, hk, himp⟩ := bind_eq_ok.mp himp
    obtain ⟨rest, hrest, himp⟩ := bind_eq_ok.mp himp
    obtain ⟨prv, hprv, hk⟩ := bind_eq_ok.mp hk
    cases hk
    cases himp
    intro k hk
    rcases List.mem_cons.mp hk with rfl | hk
    · exact (fetch_eq_ok.mp hprv).2.publicKey_eq
    · exact ih hrest k hk

theorem publicKey_of_fileKeys {json : List (PublicKey × RawKey)} {keys : List (PublicKey × RawKey)}
    (hfile : fileKeys F json password = .ok (.ok keys)) : ∀ k ∈ keys, F.publicKey k.2 = k.1 := by
  rw [fileKeys] at hfile
  split at hfile
  · cases hfile
  · obtain ⟨⟨temp, valid⟩, -, hfile⟩ := bind_eq_ok.mp hfile
    dsimp only at hfile
    split at hfile
    · exact publicKey_of_importedKeys (Except.ok.inj hfile)
    · cases hfile

/-- A key that is given out by an unlocked wallet. -/
theorem fetch_eq_ok : w.fetch F id p = .ok prv ↔
    ∃ s, w.stores.get id = some s ∧ s.validPassword F = true ∧ s.Holds F (s.walletKey F) p prv := by
  rw [fetch]
  split
  · next hnone => simp [hnone]
  · next s hget =>
    simp only [hget, Option.some.injEq, exists_eq_left']
    split_ifs with hval hfind
    · simp [hval]
    · constructor
      · intro h
        cases h
      · rintro ⟨-, hhold⟩
        have hkey := (holds_iff.mp hhold).1
        rw [find] at hfind
        rw [entryGetRaw, Option.isNone_iff_eq_none.mp hfind] at hkey
        exact absurd rfl hkey
    · exact WalletStore.fetch_eq_ok

theorem coherent_empty : empty.Coherent F :=
  ⟨fun _ _ hget => (nomatch hget),
    fun _ _ _ h => by
      obtain ⟨id, s, wk, hget, -⟩ := h
      cases hget⟩

section

variable (hw : w.Coherent F) (hF : F.Sound)

include hw

theorem Coherent.preserves_self : Preserves F w w := ⟨hw, fun _ _ h => h⟩

/-- The wallets stay intact if the changed one is. -/
theorem Coherent.intact_putWith (hs : s'.Intact F password wk) :
    ∀ id' s1, (w.putWith id s' password).stores.get id' = some s1 →
      ∃ wk', s1.Intact F ((w.putWith id s' password).passwords id') wk' := by
  intro id' s1 hget1
  by_cases hid : id' = id
  · subst hid
    cases (get_put_self _ _ _).symm.trans hget1
    exact ⟨wk, by simpa [putWith, notePassword] using hs⟩
  · obtain ⟨wk', hintact⟩ := hw.intact id' s1 ((get_put_of_ne _ _ hid).symm.trans hget1)
    exact ⟨wk', by simpa [putWith, notePassword, hid, put] using hintact⟩

/-- A changed wallet with which the same keys are held. -/
theorem Coherent.preserves_of_held_iff (hs : s'.Intact F password wk)
    (hheld : ∀ p prv, (w.putWith id s' password).Held F p prv ↔ w.Held F p prv) :
    Preserves F w (w.putWith id s' password) := by
  refine ⟨⟨hw.intact_putWith hs, fun p prv prv' h h' => ?_⟩, fun p prv h => (hheld p prv).mpr h⟩
  exact hw.agree p prv prv' ((hheld p prv).mp h) ((hheld p prv').mp h')

include hF

/-- A new wallet without keys. -/
theorem Coherent.preserves_new (hnone : w.stores.get id = none) (hs : s'.Intact F password wk)
    (hemp : ∀ p prv, ¬ s'.Holds F wk p prv) : Preserves F w (w.putWith id s' password) := by
  refine hw.preserves_of_held_iff hs fun p prv => held_putWith.trans ⟨?_, ?_⟩
  · rintro (⟨wk1, hi, hh⟩ | ⟨id1, -, h⟩)
    · rw [hi.toChecked.unique hF hs.toChecked] at hh
      exact absurd hh (hemp p prv)
    · exact ⟨id1, h⟩
  · rintro ⟨id1, h⟩
    refine .inr ⟨id1, ?_, h⟩
    rintro rfl
    obtain ⟨s1, wk1, hget1, -⟩ := h
    cases hnone.symm.trans hget1

section

variable (hget : w.stores.get id = some s) (hs : s.Intact F (w.passwords id) wk)

include hget hs

omit hw in
/-- What an intact wallet holds it holds with its wallet key. -/
theorem holds_of_heldBy (h : w.HeldBy F id p prv) : s.Holds F wk p prv := by
  obtain ⟨s1, wk1, hget1, hi, hh⟩ := h
  cases hget.symm.trans hget1
  rwa [hi.toChecked.unique hF hs.toChecked] at hh

/-- A wallet that grows by keys which no other wallet contradicts. -/
theorem Coherent.preserves_grows {new : PublicKey → RawKey → Prop}
    (hg : Grows F s s' password wk new)
    (hnew : ∀ p prv prv', new p prv → w.Held F p prv' → prv' = prv) :
    Preserves F w (w.putWith id s' password) := by
  -- a key of the changed wallet was held before, or is one of the new ones
  have hold : ∀ {p prv wk'}, s'.Intact F password wk' → s'.Holds F wk' p prv →
      s'.Holds F wk p prv ∧ (w.Held F p prv ∨ new p prv) := by
    intro p prv wk' hintact hhold
    rw [hintact.toChecked.unique hF hg.intact.toChecked] at hhold
    refine ⟨hhold, ?_⟩
    rcases hg.only p prv hhold with hs' | hn
    · exact .inl ⟨id, s, wk, hget, hs, hs'⟩
    · exact .inr hn
  have hoth : ∀ {p prv prv' wk'}, s'.Intact F password wk' → s'.Holds F wk' p prv →
      w.Held F p prv' → prv' = prv := by
    intro p prv prv' wk' hintact hhold hheld
    rcases (hold hintact hhold).2 with h | h
    · exact hw.agree p prv' prv hheld h
    · exact hnew p prv prv' h hheld
  refine ⟨⟨hw.intact_putWith hg.intact, ?_⟩, ?_⟩
  · intro p prv prv' h h'
    rw [held_putWith] at h h'
    rcases h with ⟨wk1, hi, hh⟩ | ⟨id1, -, h⟩
    · rcases h' with ⟨wk2, hi', hh'⟩ | ⟨id2, -, h'⟩
      · exact (hold hi hh).1.unique (hold hi' hh').1
      · exact (hoth hi hh ⟨id2, h'⟩).symm
    · rcases h' with ⟨wk2, hi', hh'⟩ | ⟨id2, -, h'⟩
      · exact hoth hi' hh' ⟨id1, h⟩
      · exact hw.agree p prv prv' ⟨id1, h⟩ ⟨id2, h'⟩
  · rintro p prv ⟨id1, h⟩
    rw [held_putWith]
    by_cases hid : id1 = id
    · subst hid
      have hh := holds_of_heldBy hF hget hs h
      refine .inl ⟨wk, hg.intact, hg.keeps p prv hh fun prv' hn => ?_⟩
      exact (hnew p prv' prv hn ⟨id1, h⟩).symm
    · exact .inr ⟨id1, hid, h⟩

/-- A wallet that loses a key which another wallet holds too. -/
theorem Coherent.preserves_del (hp : p ∉ reserved)
    (hoth : ∀ prv, s.Holds F wk p prv → ∃ id', id' ≠ id ∧ w.HeldBy F id' p prv) :
    Preserves F w (w.putWith id { s with entries := s.entries.del p } (w.passwords id)) := by
  have hintact := hs.del hp
  refine hw.preserves_of_held_iff hintact fun q prv => held_putWith.trans ⟨?_, ?_⟩
  · rintro (⟨wk1, hi, hh⟩ | ⟨id1, -, h⟩)
    · rw [hi.toChecked.unique hF hintact.toChecked, holds_del hp] at hh
      exact ⟨id, s, wk, hget, hs, hh.2⟩
    · exact ⟨id1, h⟩
  · rintro ⟨id1, h⟩
    by_cases hid : id1 = id
    · subst hid
      have hh := holds_of_heldBy hF hget hs h
      by_cases hq : q = p
      · rw [hq] at hh ⊢
        exact .inr (hoth prv hh)
      · exact .inl ⟨wk, hintact, (holds_del hp).mpr ⟨hq, hh⟩⟩
    · exact .inr ⟨id1, hid, h⟩

omit hw in
/-- The password of a wallet gives out exactly the keys that it holds. -/
theorem unlockAndFetch_eq_ok : w.unlockAndFetch F id p = .ok prv ↔ s.Holds F wk p prv := by
  obtain ⟨valid, hatt⟩ := hs.attemptPassword_eq (w.passwords id)
  have hval := hs.validPassword hF
  have hkey := (hs.withPassword (s.deriveKey F (w.passwords id))).walletKey_eq hF hval
  rw [unlockAndFetch, hget]
  dsimp only
  rw [hatt]
  rw [fetch_eq_ok]
  constructor
  · rintro ⟨s1, hget1, -, hhold⟩
    cases (get_put_self _ _ _).symm.trans hget1
    rw [hkey] at hhold
    exact hhold.congr rfl rfl rfl
  · intro hhold
    refine ⟨_, get_put_self _ _ _, hval, ?_⟩
    rw [hkey]
    exact hhold.congr rfl rfl rfl

end

/-! ### The operations -/

/-- An operation on one wallet that grows by keys which no other wallet contradicts. -/
theorem Coherent.preserves_modify
    {f : WalletStore → Except WalletPanic (Except WalletError WalletStore)}
    (hmod : w.modify id f = .ok w') (hf : ∀ s s' wk, w.stores.get id = some s → s.Intact F
    (w.passwords id) wk → f s = .ok (.ok s') → ∃ new, Grows F s s' (w.passwords id) wk new ∧ ∀ p
    prv prv', new p prv → w.Held F p prv' → prv' = prv) : Preserves F w w' := by
  rw [modify] at hmod
  split at hmod
  · cases hmod
    exact hw.preserves_self
  · next s hget =>
    obtain ⟨result, hres, hmod⟩ := bind_eq_ok.mp hmod
    cases result with
    | error e =>
      cases hmod
      exact hw.preserves_self
    | ok s' =>
      cases hmod
      obtain ⟨wk, hs⟩ := hw.intact id s hget
      obtain ⟨new, hgrows, hnew⟩ := hf s s' wk hget hs hres
      rw [put_eq_putWith]
      exact hw.preserves_grows hF hget hs hgrows hnew

/-- Moving keys to another unlocked wallet. -/
theorem Coherent.preserves_moveKeys {source target : WalletId} {t : WalletStore} {wk' : RawKey}
    {keys : List PublicKey} (hne : source ≠ target) (hs : w.stores.get source = some s)
    (hsi : s.Intact F (w.passwords source) wk) (hsv : s.validPassword F = true)
    (ht : w.stores.get target = some t) (hti : t.Intact F (w.passwords target) wk')
    (htv : t.validPassword F = true)
    (hd : ∀ k ∈ keys, ∀ prv, s.Holds F wk k prv → Distinct F wk' prv)
    (hmove : moveKeys F source target keys w = .ok w') : Preserves F w w' := by
  induction keys generalizing w s t with
  | nil =>
    cases hmove
    exact hw.preserves_self
  | cons k keys ih =>
    rw [moveKeys, hs] at hmove
    dsimp only at hmove
    split at hmove
    · cases hmove
      exact hw.preserves_self
    · next prv hfetch =>
      have hhold : s.Holds F wk k prv := by
        rw [← hsi.walletKey_eq hF hsv]
        exact (WalletStore.fetch_eq_ok.mp hfetch).2
      have hkey := hhold.publicKey_eq
      have hk : k ∉ reserved := not_mem_reserved (hkey ▸ hF.publicKey_valid prv)
      have hins := hti.insertAdhoc hF htv (hd k (by simp) prv hhold)
      rw [modify, ht] at hmove
      obtain ⟨w1, hw1, hmove⟩ := bind_eq_ok.mp hmove
      cases hw1
      obtain ⟨w2, hw2, hmove⟩ := bind_eq_ok.mp hmove
      -- the key is in both wallets between the two changes
      have hfst : Preserves F w (w.put target (t.insertAdhoc F prv).1) := by
        rw [put_eq_putWith]
        refine hw.preserves_grows hF ht hti hins ?_
        rintro p x prv' ⟨rfl, rfl⟩ hheld
        rw [hkey] at hheld
        exact hw.agree k prv' x hheld ⟨source, s, wk, hs, hsi, hhold⟩
      have hs1 : (w.put target (t.insertAdhoc F prv).1).stores.get source = some s :=
        (get_put_of_ne _ _ hne).trans hs
      rw [modify, hs1] at hw2
      obtain ⟨result, hres, hw2⟩ := bind_eq_ok.mp hw2
      obtain ⟨s', herase, hres⟩ := bind_eq_ok.mp hres
      cases hres
      cases hw2
      rw [erase] at herase
      split at herase
      · cases herase
        have hsnd := hfst.coherent.preserves_del hF hs1 hsi hk fun x hx => by
          refine ⟨target, hne.symm, (t.insertAdhoc F prv).1, wk', get_put_self _ _ _,
            hins.intact, ?_⟩
          rw [hx.unique hhold, ← hkey]
          exact hti.holds_insertAdhoc hF htv (hd k (by simp) prv hhold)
        rw [← put_eq_putWith] at hsnd
        refine (hfst.trans hsnd).trans (ih hsnd.coherent
          (get_put_self _ _ _) (hsi.del hk) ?_ ((get_put_of_ne _ _ hne.symm).trans
            (get_put_self _ _ _)) hins.intact ?_ (fun q hq x hx => ?_) hmove)
        · exact (validPassword_del hk).trans hsv
        · exact (validPassword_put (not_mem_reserved (hF.publicKey_valid prv))).trans htv
        · exact hd q (List.mem_cons_of_mem _ hq) x ((holds_del hk).mp hx).2
      · cases herase

/-- Creating a wallet, or opening one that is there already. -/
theorem Coherent.preserves_create {r : WalletSecrets} (hr : w.stores.get id = none → Proper F r)
    (hcreate : w.create F id r = .ok w') : Preserves F w w' := by
  obtain ⟨s', henter, hw'⟩ := bind_eq_ok.mp hcreate
  cases hw'
  cases hget : w.stores.get id with
  | none =>
    rw [hget] at henter
    obtain ⟨hchecked, hval, hemp⟩ := new_spec hF (hr hget)
    have hgrows := hchecked.rekey hF (rekey_of_enterInitialPassword rfl hval henter)
    change Preserves F w (WalletKeys.put (if (new F r).validPassword F then _ else _) id s')
    rw [if_pos hval]
    refine hw.preserves_new hF hget hgrows.intact fun p prv hhold => ?_
    exact (hgrows.only p prv hhold).elim (hemp _ p prv) False.elim
  | some s =>
    rw [hget] at henter
    obtain ⟨wk, hs⟩ := hw.intact id s hget
    have hreopen : Grows F s s.reopen _ wk fun _ _ => False := .of_same hF hs.reopen fun _ _ => rfl
    have hgrows := hreopen.trans (hs.reopen.enterInitialPassword hF henter rfl)
    have hpreserves := hw.preserves_grows hF hget hs hgrows fun _ _ _ hnew _ => by simp at hnew
    change Preserves F w (WalletKeys.put (if s.reopen.validPassword F then _ else _) id s')
    split_ifs at hpreserves ⊢
    · exact hpreserves
    · rw [put_eq_putWith]
      exact hpreserves

/-- No wallet holds another private key for the public key of this one. -/
def Unopposed (F : KeyFunctions) (w : WalletKeys) (prv : RawKey) : Prop :=
  ∀ prv', w.Held F (F.publicKey prv) prv' → prv' = prv

/-- The operations that lose no key. -/
def Careful (F : KeyFunctions) (w : WalletKeys) : KeyOperation → Prop
  | .create id r => w.stores.get id = none → Proper F r
  | .insertAdhoc id key => Unopposed F w key ∧
    ∀ s, w.stores.get id = some s → Distinct F (s.walletKey F) key
  | .deterministicInsert id fuel => ∀ s, w.stores.get id = some s →
    ∀ index, s.nextIndex F fuel s.deterministicIndexGet = .ok index →
      Unopposed F w (s.deterministicKey F index)
  | .deterministicInsertAt id index => ∀ s, w.stores.get id = some s →
    Unopposed F w (s.deterministicKey F index)
  | .insertWatch id accounts => ∀ p ∈ accounts, ∀ prv, w.fetch F id p ≠ .ok prv
  | .moveAccounts source target accounts => source ≠ target ∧
    ∀ t, w.stores.get target = some t → ∀ p ∈ accounts, ∀ prv, w.fetch F source p = .ok prv →
      Distinct F (t.walletKey F) prv
  | .importReplace id json password => ∀ s, w.stores.get id = some s →
    s.validPassword F = true ∧ ∀ keys, fileKeys F json password = .ok (.ok keys) →
      ∀ k ∈ keys, k.2 ≠ 0 ∧ Distinct F (s.walletKey F) k.2 ∧ Unopposed F w k.2
  | _ => True

/-- Careful operations lose no key. -/
theorem Coherent.apply {op : KeyOperation} (hop : Careful F w op) (happ : w.apply F op = .ok w') :
    Preserves F w w' := by
  cases op with
  | create id r => exact hw.preserves_create hF hop happ
  | insertAdhoc id key =>
    refine hw.preserves_modify hF happ fun s s' wk hget hs hf => ?_
    obtain ⟨hval, hf⟩ := whenUnlocked_eq_ok.mp hf
    cases hf
    have hd := hop.2 s hget
    rw [hs.walletKey_eq hF hval] at hd
    refine ⟨_, hs.insertAdhoc hF hval hd, ?_⟩
    rintro p prv prv' ⟨rfl, rfl⟩ hheld
    exact hop.1 prv' hheld
  | deterministicInsert id fuel =>
    refine hw.preserves_modify hF happ fun s s' wk hget hs hf => ?_
    obtain ⟨hval, hf⟩ := whenUnlocked_eq_ok.mp hf
    obtain ⟨result, hins, hf⟩ := bind_eq_ok.mp hf
    cases hf
    obtain ⟨index, hnext, hgrows⟩ := hs.deterministicInsert hF hval hins
    refine ⟨_, hgrows, ?_⟩
    rintro p prv prv' ⟨rfl, rfl⟩ hheld
    exact hop s hget index hnext prv' hheld
  | deterministicInsertAt id index =>
    refine hw.preserves_modify hF happ fun s s' wk hget hs hf => ?_
    obtain ⟨hval, hf⟩ := whenUnlocked_eq_ok.mp hf
    cases hf
    refine ⟨_, hs.deterministicInsertAt hF hval index, ?_⟩
    rintro p prv prv' ⟨rfl, rfl⟩ hheld
    exact hop s hget prv' hheld
  | insertWatch id accounts =>
    refine hw.preserves_modify hF happ fun s s' wk hget hs hf => ?_
    obtain ⟨hval, hf⟩ := whenUnlocked_eq_ok.mp hf
    refine ⟨_, hs.insertWatchAll hF (fun p hp prv hhold => ?_) (Except.ok.inj hf),
      fun _ _ _ hnew _ => hnew.elim⟩
    rw [← hs.walletKey_eq hF hval] at hhold
    exact hop p hp prv (fetch_eq_ok.mpr ⟨s, hget, hval, hhold⟩)
  | moveAccounts source target accounts =>
    change w.moveAccounts F source target accounts = .ok w' at happ
    rw [moveAccounts] at happ
    split at happ
    · next s t hs ht =>
      split at happ
      · cases happ
        exact hw.preserves_self
      · next hval =>
        simp only [not_or, Bool.not_eq_false] at hval
        obtain ⟨wk, hsi⟩ := hw.intact source s hs
        obtain ⟨wk', hti⟩ := hw.intact target t ht
        refine hw.preserves_moveKeys hF hop.1 hs hsi hval.1 ht hti hval.2
          (fun p hp prv hhold => ?_) happ
        rw [← hti.walletKey_eq hF hval.2]
        rw [← hsi.walletKey_eq hF hval.1] at hhold
        exact hop.2 t ht p hp prv (fetch_eq_ok.mpr ⟨s, hs, hval.1, hhold⟩)
    · cases happ
      exact hw.preserves_self
  | importReplace id json password =>
    refine hw.preserves_modify hF happ fun s s' wk hget hs hf => ?_
    obtain ⟨hval, hkeys⟩ := hop s hget
    obtain ⟨result, hfile, hf⟩ := bind_eq_ok.mp hf
    cases result with
    | error e => cases hf
    | ok keys =>
      cases hf
      have hkey := publicKey_of_fileKeys hfile
      rw [hs.walletKey_eq hF hval] at hkeys
      refine ⟨_, hs.importKeys hF hval fun k hk => ?_, fun p prv prv' hnew hheld => ?_⟩
      · obtain ⟨hzero, hd, -⟩ := hkeys keys hfile k hk
        exact ⟨hkey k hk, hzero, hd⟩
      · have hunopposed := (hkeys keys hfile _ hnew).2.2
        rw [Unopposed, hkey _ hnew] at hunopposed
        exact hunopposed prv' hheld
  | rekey id password =>
    cases happ
    rw [rekey]
    split
    · exact hw.preserves_self
    · next s hget =>
      obtain ⟨wk, hs⟩ := hw.intact id s hget
      split
      · next s' hrekey =>
        exact hw.preserves_grows hF hget hs (hs.toChecked.rekey hF hrekey)
          fun _ _ _ hnew _ => hnew.elim
      · exact hw.preserves_self
  | lock id =>
    refine hw.preserves_modify hF happ fun s s' wk hget hs hf => ?_
    cases hf
    exact ⟨_, hs.grows_password hF 0, fun _ _ _ hnew _ => hnew.elim⟩
  | attemptPassword id password =>
    refine hw.preserves_modify hF happ fun s s' wk hget hs hf => ?_
    obtain ⟨valid, hatt⟩ := hs.attemptPassword_eq password
    rw [hatt] at hf
    cases hf
    exact ⟨_, hs.grows_password hF _, fun _ _ _ hnew _ => hnew.elim⟩
  | workSet id pubKey work =>
    refine hw.preserves_modify hF happ fun s s' wk hget hs hf => ?_
    split at hf
    · cases hf
    · cases hf
      exact ⟨_, hs.workPut hF pubKey work, fun _ _ _ hnew _ => hnew.elim⟩
  | setRepresentative id representative updateExistingAccounts =>
    refine hw.preserves_modify hF happ fun s s' wk hget hs hf => ?_
    split at hf
    · cases hf
    · cases hf
      exact ⟨_, hs.grows_put_special hF (by decide) (by decide) _, fun _ _ _ hnew _ => hnew.elim⟩

/-! ### Runs -/

/-- A key that can be fetched is held. -/
theorem Coherent.held_of_fetch (hfetch : w.fetch F id p = .ok prv) : w.Held F p prv := by
  obtain ⟨s, hget, hval, hhold⟩ := fetch_eq_ok.mp hfetch
  obtain ⟨wk, hs⟩ := hw.intact id s hget
  rw [hs.walletKey_eq hF hval] at hhold
  exact ⟨id, s, wk, hget, hs, hhold⟩

/-- Runs of careful operations. -/
def Run (F : KeyFunctions) : WalletKeys → WalletKeys → Prop := Machine.Run (apply F) (Careful F)

theorem Coherent.run (hrun : Run F w w') : Preserves F w w' :=
  Machine.Run.invariant hrun hw.preserves_self fun h hop happ =>
    h.trans (h.coherent.apply hF hop happ)

end

/-- In every run of careful operations a key that could be fetched once can be fetched from some
wallet with its password, and no wallet gives out another key for its public key. -/
theorem run_fetch (hF : F.Sound) (hbefore : Run F empty w) {p : PublicKey} {prv : RawKey}
    (hfetch : w.fetch F id p = .ok prv) (hafter : Run F w w') :
    (∃ id', w'.unlockAndFetch F id' p = .ok prv) ∧
      ∀ id' prv', w'.fetch F id' p = .ok prv' ∨ w'.unlockAndFetch F id' p = .ok prv' →
        prv' = prv := by
  have hw := (coherent_empty.run hF hbefore).coherent
  have hrun := hw.run hF hafter
  have hheld := hrun.held p prv (hw.held_of_fetch hF hfetch)
  refine ⟨?_, fun id' prv' h => ?_⟩
  · obtain ⟨id', s, wk, hget, hs, hholds⟩ := hheld
    exact ⟨id', (unlockAndFetch_eq_ok hF hget hs).mpr hholds⟩
  · refine hrun.coherent.agree p prv' prv ?_ hheld
    rcases h with h | h
    · exact hrun.coherent.held_of_fetch hF h
    · cases hget : w'.stores.get id' with
      | none =>
        rw [unlockAndFetch, hget] at h
        cases h
      | some s =>
        obtain ⟨wk, hs⟩ := hrun.coherent.intact id' s hget
        exact ⟨id', s, wk, hget, hs, (unlockAndFetch_eq_ok hF hget hs).mp h⟩

/-! ### Wallets with simple key functions -/

/-- Encryption by exclusive or, one password hash, and public keys that are never reserved. -/
def xorKeys : KeyFunctions where
  encrypt x key _ := ⟨x.number ^^^ key.number⟩
  hashPassword _ _ := ⟨1⟩
  publicKey prv := ⟨prv.number ||| 8⟩
  deterministicKey seed index := ⟨seed.number + index.setWidth 256⟩

theorem sound_xorKeys : xorKeys.Sound where
  decrypt_encrypt x key iv := by
    change (⟨(x.number ^^^ key.number) ^^^ key.number⟩ : RawKey) = x
    rw [BitVec.xor_assoc, BitVec.xor_self, BitVec.xor_zero]
  check_detects wk wk' iv h := by
    have hnum := congrArg U256.number h
    change 0#256 ^^^ wk.number = 0#256 ^^^ wk'.number at hnum
    rw [BitVec.zero_xor, BitVec.zero_xor] at hnum
    exact U256.ext hnum
  publicKey_valid prv := by
    refine decide_eq_true ?_
    change (7#256).toNat ≤ (prv.number ||| 8#256).toNat
    rw [BitVec.toNat_or]
    exact le_trans (by decide) Nat.right_le_or

def exampleSecrets : WalletSecrets := ⟨⟨2 ^ 200⟩, ⟨2 ^ 201⟩, ⟨2 ^ 202⟩, ⟨2 ^ 203⟩⟩

def exampleKey : RawKey := ⟨5⟩

/-- The wallets after an operation, unchanged if it panics. -/
abbrev result (w : WalletKeys) (op : KeyOperation) : WalletKeys :=
  Machine.result (apply xorKeys) w op

/-- One more operation of a run, given by its result. -/
theorem Run.result (op : KeyOperation) (h : Run xorKeys w w') (hop : Careful xorKeys w' op)
    (hok : (w'.apply xorKeys op).toOption.isSome = true) : Run xorKeys w (w'.result op) :=
  Machine.Run.result h hop hok

/-- Two wallets without keys. -/
def emptyWallets : WalletKeys :=
  (empty.result (.create ⟨1⟩ exampleSecrets)).result (.create ⟨2⟩ exampleSecrets)

/-- The first of the wallets has a key. -/
def keyWallets : WalletKeys := emptyWallets.result (.insertAdhoc ⟨1⟩ exampleKey)

/-- Some wallet has a value that is not zero behind a public key. -/
def anyValue (w : WalletKeys) (p : PublicKey) : Bool :=
  w.stores.any fun _ s => decide ((s.entryGetRaw p).key ≠ 0)

theorem anyValue_of_unlockAndFetch (h : w.unlockAndFetch F id p = .ok prv) :
    w.anyValue p = true := by
  rw [unlockAndFetch] at h
  split at h
  · cases h
  · next s hget =>
    split at h
    · next s' valid hatt =>
      have hents : s'.entries = s.entries := by
        rw [attemptPassword] at hatt
        split at hatt
        · cases hatt
        · cases hatt
          rfl
      obtain ⟨s1, hget1, -, hhold⟩ := fetch_eq_ok.mp h
      cases (get_put_self _ _ _).symm.trans hget1
      have hkey := (holds_iff.mp hhold).1
      rw [entryGetRaw, hents] at hkey
      exact any_iff.mpr ⟨id, s, hget, decide_eq_true hkey⟩
    · cases h

theorem run_emptyWallets : Run xorKeys empty emptyWallets := by
  have hproper : Proper xorKeys exampleSecrets := ⟨by decide +kernel, by decide +kernel⟩
  have hfst : Run xorKeys empty (empty.result (.create ⟨1⟩ exampleSecrets)) :=
    Run.result _ .refl (fun _ => hproper) (by decide +kernel)
  exact hfst.result _ (fun _ => hproper) (by decide +kernel)

theorem run_keyWallets : Run xorKeys empty keyWallets := by
  have hdist : ∀ s ∈ emptyWallets.stores.get ⟨1⟩,
      Distinct xorKeys (s.walletKey xorKeys) exampleKey := by
    decide +kernel
  have hnone : emptyWallets.anyValue (xorKeys.publicKey exampleKey) = false := by
    decide +kernel
  refine run_emptyWallets.result _ ⟨?_, hdist⟩ (by decide +kernel)
  rintro prv' ⟨id, s, wk, hget, -, hhold⟩
  cases hnone.symm.trans (any_iff.mpr ⟨id, s, hget, decide_eq_true (holds_iff.mp hhold).1⟩)

/-- The key is moved to the other wallet, which is locked then. -/
def movedWallets : WalletKeys :=
  (keyWallets.result (.moveAccounts ⟨1⟩ ⟨2⟩ [⟨13⟩])).result (.lock ⟨2⟩)

/-- A key that was moved to another wallet comes back when that one is unlocked. -/
theorem run_fetch_movedWallets :
    keyWallets.fetch xorKeys ⟨1⟩ ⟨13⟩ = .ok exampleKey ∧
      ∃ id', movedWallets.unlockAndFetch xorKeys id' ⟨13⟩ = .ok exampleKey := by
  have hfetch : keyWallets.fetch xorKeys ⟨1⟩ ⟨13⟩ = .ok exampleKey := by
    decide +kernel
  have hdistinct : ∀ t ∈ keyWallets.stores.get ⟨2⟩,
      Distinct xorKeys (t.walletKey xorKeys) exampleKey := by
    decide +kernel
  have hmoved : Run xorKeys keyWallets (keyWallets.result (.moveAccounts ⟨1⟩ ⟨2⟩ [⟨13⟩])) := by
    refine Run.result _ .refl ⟨by decide, fun t ht p hp prv hprv => ?_⟩ (by decide +kernel)
    cases List.mem_singleton.mp hp
    cases hfetch.symm.trans hprv
    exact hdistinct t ht
  have hlocked : Run xorKeys keyWallets movedWallets :=
    hmoved.result _ trivial (by decide +kernel)
  exact ⟨hfetch, (run_fetch sound_xorKeys run_keyWallets hfetch hlocked).1⟩

/-- The account of the key is watched. -/
def watchedWallets : WalletKeys := keyWallets.result (.insertWatch ⟨1⟩ [⟨13⟩])

/-- Watching an account loses its key. -/
theorem exists_lost_key : ∃ (F : KeyFunctions) (w w' : WalletKeys) (id : WalletId) (p : PublicKey)
    (prv : RawKey), F.Sound ∧ Machine.Run (apply F) (fun _ _ => True) empty w ∧
      w.fetch F id p = .ok prv ∧ Machine.Run (apply F) (fun _ _ => True) w w' ∧
        ∀ id', w'.unlockAndFetch F id' p ≠ .ok prv := by
  refine ⟨xorKeys, keyWallets, watchedWallets, ⟨1⟩, ⟨13⟩, exampleKey, sound_xorKeys, ?_,
    by decide +kernel, ?_, ?_⟩
  · exact Machine.Run.mono run_keyWallets fun _ _ _ => trivial
  · exact Machine.Run.result .refl trivial (by decide +kernel)
  · intro id' h
    have hnone : watchedWallets.anyValue ⟨13⟩ = false := by
      decide +kernel
    cases hnone.symm.trans (anyValue_of_unlockAndFetch h)

end RsNano.WalletKeys
