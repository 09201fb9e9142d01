import RsNano.Ledger.CementConcurrent
import RsNano.Ledger.RepWeights
import RsNano.Consensus.FinalVotes

/-!
# The ledgers of one network

Nodes insert, roll back and confirm blocks in different orders, and they compare their ledgers by
frontiers, the heads of the account chains. A block stands for all that it depends on, so nodes
that have a block agree about everything below it, and nodes with the same frontiers have the same
ledger. What can differ is what the blocks do not determine: signatures and work, times, and what
has been confirmed. Epochs are left out.

No order of these changes creates or loses money, or leaves room for a fork of a confirmed block.
-/

namespace RsNano.Ledger

open Table SavedBlock Block Option

/-- What the blocks of a ledger determine. -/
structure View where
  block : Table BlockHash Block
  account : Table Account AccountInfo
  pending : Table PendingKey (Account × Amount)
  repWeight : Table PublicKey Amount

def view (l : Ledger) : View where
  block := l.block.mapValues fun _ sb => sb.block.unsigned
  account := l.account.mapValues fun _ info => { info with modified := 0, epoch := .unspecified }
  pending := l.pending.mapValues fun _ info => (info.source, info.amount)
  repWeight := l.repWeight

/-- Two ledgers of one network, in which a hash stands for the same contents, with the same
frontiers. -/
structure Synced (c : LedgerConstants) (contents : BlockHash → Block) (l l' : Ledger) : Prop where
  orderly : l.Orderly c
  orderly' : l'.Orderly c
  stored : HasContents c contents l
  stored' : HasContents c contents l'
  frontiers : ∀ a, l.accountHead a = l'.accountHead a

variable {c : LedgerConstants} {contents : BlockHash → Block} {l l' : Ledger} {x : BlockHash}
  {sb sb' : SavedBlock} {a : Account} {info : AccountInfo} {minWeight minWeight' : Amount}

/-- Along every run of insertions that keep the ledger reversible, roll-backs, confirmations and
votes, the supply is conserved and the pending table is exact. -/
theorem allowedRun_conserved (h : AllowedRun c (KeepsReversible c) (genesis c minWeight) l) :
    l.supply = 2 ^ 128 - 1 ∧ l.PendingExact c := by
  have ho : l.Orderly c := .run .genesis_ledger (fun _ _ h => h) h
  exact ⟨ho.supply_eq, ho.reversible.receivables.pendingExact⟩

theorem conserved_devReceived :
    devReceived.supply = 2 ^ 128 - 1 ∧ devReceived.PendingExact devConstants :=
  allowedRun_conserved (insertRun_devReceived (by decide +kernel) (by decide +kernel)).allowedRun

/-- Once a block is confirmed, no later ledger of the node has another block for its root. -/
theorem reachable_unforked (h : Reachable c minWeight l) (hx : l.Confirmed x)
    (hget : l.block.get x = some sb) (hrun : Run c l l') :
    l'.Confirmed x ∧ ∀ y yb, l'.block.get y = some yb →
      yb.block.qualifiedRoot = sb.block.qualifiedRoot → y = x := by
  have hkeeps := (h.cemented.run h.chained hrun).2
  exact ⟨hkeeps.confirmed hx, fun y yb hy =>
    (h.chained.run hrun).eq_of_qualifiedRoot_eq hy (hkeeps.block hget hx)⟩

theorem unforked_devReceived : devReceived.Confirmed devConstants.genesisBlock.hash := by
  have hget : (genesis devConstants 0).block.get devConstants.genesisBlock.hash =
      some devConstants.savedGenesis.stored := genesis_block_get.mpr ⟨rfl, rfl⟩
  have hx : (genesis devConstants 0).Confirmed devConstants.genesisBlock.hash :=
    ⟨_, hget, by decide +kernel⟩
  exact (reachable_unforked .refl hx hget reachable_devReceived).1

namespace Synced

variable (h : Synced c contents l l')

include h

theorem symm : Synced c contents l' l :=
  ⟨h.orderly', h.orderly, h.stored', h.stored, fun a => (h.frontiers a).symm⟩

theorem chained : l.Chained := h.orderly.reversible.chained

section

variable (hget : l.block.get x = some sb) (hget' : l'.block.get x = some sb')

include hget hget'

theorem unsigned_eq : sb.block.unsigned = sb'.block.unsigned :=
  h.orderly.unsigned_eq h.orderly' h.stored h.stored' hget hget'

/-- What the contents of a block determine is the same on both sides. -/
theorem field_eq {α : Type} (f : Block → α)
    (hf : ∀ b, f b.unsigned = f b := by rintro (_ | _) <;> rfl) :
    f sb.block = f sb'.block := by
  rw [← hf, h.unsigned_eq hget hget', hf]

theorem balance_eq : sb.balance = sb'.balance ∧
    previousBalanceIn l.block sb = previousBalanceIn l'.block sb' := by
  obtain ⟨hbal, hprev, -⟩ := h.orderly.agree h.orderly' h.stored h.stored' hget hget'
  exact ⟨hbal, hprev⟩

/-- A block has the same place in both ledgers. The induction is down the account chain. -/
theorem place_eq : sb.account = sb'.account ∧ sb.height = sb'.height := by
  induction hn : sb.height using Nat.strong_induction_on generalizing x sb sb' with
  | _ n ih =>
    have hprev := previous_congr (h.unsigned_eq hget hget')
    by_cases hzero : sb.previous = 0
    · obtain ⟨hone, hopen⟩ := h.chained.linked.first hget hzero
      obtain ⟨hone', -⟩ := h.symm.chained.linked.first hget' (hprev ▸ hzero)
      have hfield := h.field_eq hget hget' accountField
      refine ⟨?_, by omega⟩
      rw [SavedBlock.account, SavedBlock.account, ← hfield]
      cases hblock : sb.block with
      | legacyOpen b | state b => rfl
      | legacySend b | legacyReceive b | legacyChange b => rw [hblock] at hopen; cases hopen
    · obtain ⟨p, hp, hacc, hht⟩ := h.chained.linked.previous hget hzero
      obtain ⟨p', hp', hacc', hht'⟩ := h.symm.chained.linked.previous hget' (hprev ▸ hzero)
      obtain ⟨hsame, hlevel⟩ := ih p.height (by omega) hp (hprev ▸ hp') rfl
      exact ⟨hacc.symm.trans (hsame.trans hacc'), by omega⟩

/-- A block receives the same send in both ledgers: it is a receive because it raises the
balance. -/
theorem receivedSend_eq {s : BlockHash} (hsend : sb.receivedSend c = some s) :
    sb'.receivedSend c = some s := by
  have hb' := h.orderly'.reversible.balanced
  have hlt := h.orderly.reversible.balanced.receive hget hsend
  rw [(h.balance_eq hget hget').1, (h.balance_eq hget hget').2] at hlt
  cases hsend' : sb'.receivedSend c with
  | some s' =>
    have hsame := h.field_eq hget hget' sourceOrLink
    rw [← sourceOrLink_of_receivedSend hsend, ← sourceOrLink_of_receivedSend hsend', hsame]
  | none =>
    by_cases hgen : x = c.genesisBlock.hash
    · subst hgen
      cases h.orderly.genesis.symm.trans hget
      cases h.orderly'.genesis.symm.trans hget'
      cases hsend.symm.trans hsend'
    cases hdest : sb'.destination with
    | none =>
      rw [hb'.keep hget' hgen hdest hsend'] at hlt
      exact absurd hlt (BitVec.lt_irrefl _)
    | some d => exact absurd (hb'.send hget' hdest) (BitVec.lt_asymm hlt)

end

/-- An account of one ledger is in the other, with the same head. -/
theorem exists_account (hinfo : l.account.get a = some info) :
    ∃ info', l'.account.get a = some info' ∧ info'.head = info.head := by
  have ha := h.frontiers a
  simp only [accountHead, getAccount, hinfo, map_some] at ha
  exact map_eq_some_iff.mp ha.symm

/-- A block of one ledger is in the other, with the same contents. -/
theorem exists_block (hget : l.block.get x = some sb) :
    ∃ sb', l'.block.get x = some sb' ∧ sb'.block.unsigned = sb.block.unsigned := by
  obtain ⟨info, hinfo, hle⟩ := h.chained.owner hget
  obtain ⟨info', hinfo', heq⟩ := h.exists_account hinfo
  obtain ⟨head, hhead, hacc, hht, -⟩ := h.chained.head hinfo
  obtain ⟨head', hhead', -⟩ := h.symm.chained.head hinfo'
  have hdep : Dependents c l.block x info.head :=
    h.chained.dependents_of_height_le hget hhead hacc (by omega)
  obtain ⟨-, sb', hget'⟩ :=
    h.orderly.dependents h.orderly' h.stored h.stored' hdep (heq ▸ hhead')
  exact ⟨sb', hget', (h.unsigned_eq hget hget').symm⟩

theorem block_eq : l.view.block = l'.view.block :=
  mapValues_congr h.exists_block h.symm.exists_block

/-- The search for a representative takes the same steps in both ledgers. -/
theorem representativeBlockHash_eq : l.representativeBlockHash = l'.representativeBlockHash := by
  have hsize := congrArg Table.size h.block_eq
  rw [view, view, size_mapValues, size_mapValues] at hsize
  have hstep : findRepStep l.block = findRepStep l'.block := by
    funext x
    rw [findRepStep, findRepStep]
    cases hget : l.block.get x with
    | none =>
      have hnone := congrArg (get · x) h.block_eq
      rw [view, view, get_mapValues, get_mapValues, hget] at hnone
      rw [map_eq_none_iff.mp hnone.symm]
    | some sb =>
      obtain ⟨sb', hget', heq⟩ := h.exists_block hget
      have hhash := (h.chained.linked.hash_eq hget).trans (h.symm.chained.linked.hash_eq hget').symm
      rw [hget']
      cases hb : sb.block <;> cases hb' : sb'.block <;> simp_all [unsigned]
  funext x
  rw [representativeBlockHash, representativeBlockHash, findRepBlock, findRepBlock, hstep, hsize]

/-- Accounts have the same content in both ledgers. -/
theorem exists_content (hinfo : l.account.get a = some info) :
    ∃ info', l'.account.get a = some info' ∧
      { info' with modified := 0, epoch := .unspecified } =
        { info with modified := 0, epoch := Epoch.unspecified } := by
  have hl := h.chained
  have hl' := h.symm.chained
  obtain ⟨info', hinfo', heq⟩ := h.exists_account hinfo
  obtain ⟨head, hhead, hacc, hcount, hbal, -⟩ := hl.head hinfo
  obtain ⟨head', hhead', -, hcount', hbal', -⟩ := hl'.head hinfo'
  rw [heq] at hhead'
  have hopen : info'.openBlock = info.openBlock := by
    obtain ⟨y, yb, hy, hya, hone⟩ :=
      hl.linked.exists_at_height le_rfl hhead (hl.linked.height_pos hhead)
    obtain ⟨yb', hy', -⟩ := h.exists_block hy
    obtain ⟨hsame, hlevel⟩ := h.place_eq hy hy'
    rw [hacc] at hya
    rw [hl'.opened hy' (hl'.linked.previous_eq_zero hy' (hlevel ▸ hone)) (hsame ▸ hya ▸ hinfo'),
      hl.opened hy (hl.linked.previous_eq_zero hy hone) (hya ▸ hinfo)]
  have hrep : info'.representative = info.representative := by
    obtain ⟨r, rb, hr, hrb, hfield⟩ := hl.representative hinfo
    obtain ⟨r', rb', hr', hrb', hfield'⟩ := hl'.representative hinfo'
    rw [heq, ← h.representativeBlockHash_eq] at hr'
    cases hr.symm.trans hr'
    have hsame := h.field_eq hrb hrb' representativeField
    exact some.inj (hfield'.symm.trans (hsame.symm.trans hfield))
  refine ⟨info', hinfo', ?_⟩
  rw [heq, hopen, hrep, ← hbal, ← hbal', (h.balance_eq hhead hhead').1, ← hcount, ← hcount',
    (h.place_eq hhead hhead').2]

/-- A receivable send of one ledger is receivable in the other. -/
theorem exists_pending {key : PendingKey} {p : PendingInfo} (hp : l.pending.get key = some p) :
    ∃ p', l'.pending.get key = some p' ∧ (p'.source, p'.amount) = (p.source, p.amount) := by
  have hr := h.orderly.reversible.receivables
  have hr' := h.orderly'.reversible.receivables
  obtain ⟨destination, x⟩ := key
  obtain ⟨sb, hget, hdest, rfl⟩ := hr.entry hp
  obtain ⟨sb', hget', heq⟩ := h.exists_block hget
  obtain ⟨hbal, hprev⟩ := h.balance_eq hget hget'
  have hdest' : sb'.destination = some destination :=
    (hr'.sends hget').mpr ((sendsTo_congr heq.symm hprev _).mp ((hr.sends hget).mp hdest))
  obtain ⟨p', hp'⟩ : ∃ p', l'.pending.get ⟨destination, x⟩ = some p' := by
    refine (hr'.complete hget' hdest').resolve_right ?_
    rintro ⟨y, rb', hrb', hsend⟩
    obtain ⟨rb, hrb, -⟩ := h.symm.exists_block hrb'
    exact hr.unreceived hp hrb (h.symm.receivedSend_eq hrb' hrb hsend)
  obtain ⟨send, hsend, -, rfl⟩ := hr'.entry hp'
  cases hget'.symm.trans hsend
  refine ⟨_, hp', ?_⟩
  rw [sendInfo, sendInfo, hbal, hprev, (h.place_eq hget hget').1]

end Synced

/-- Two nodes that have the same frontiers have the same ledger, however their insertions,
roll-backs, confirmations and votes were interleaved. -/
theorem allowedRun_view (contents : BlockHash → Block)
    (h : AllowedRun c (KeepsContents c contents) (genesis c minWeight) l)
    (h' : AllowedRun c (KeepsContents c contents) (genesis c minWeight') l')
    (hfrontiers : ∀ a, l.accountHead a = l'.accountHead a) : l.view = l'.view := by
  have hs : Synced c contents l l' :=
    ⟨.run .genesis_ledger (fun _ _ h => h.1) h, .run .genesis_ledger (fun _ _ h => h.1) h',
      .run .genesis_ledger .genesis_ledger h, .run .genesis_ledger .genesis_ledger h', hfrontiers⟩
  have hacc : l.view.account = l'.view.account :=
    mapValues_congr hs.exists_content hs.symm.exists_content
  have hpend : l.view.pending = l'.view.pending :=
    mapValues_congr hs.exists_pending hs.symm.exists_pending
  have hweight : l.repWeight = l'.repWeight := by
    refine ext_get fun r => ?_
    have hw : l.Weighted := Weighted.genesis.run Chained.genesis h.run
    have hw' : l'.Weighted := Weighted.genesis.run Chained.genesis h'.run
    have hsum := congrArg (sumBy fun _ info => (info.share r).toNat) hacc
    rw [view, view, sumBy_mapValues, sumBy_mapValues] at hsum
    rw [hw.stored, hw'.stored]
    exact congrArg (fun n => weightRecord (BitVec.ofNat 128 n)) hsum
  exact View.mk.injEq .. ▸ ⟨hs.block_eq, hacc, hpend, hweight⟩

/-- Another node of the dev network, with another minimum weight. -/
def devOther : Ledger :=
  ((genesis devConstants 1).processed devConstants (.state devSend)).processed devConstants
    (.state devOpen)

theorem view_devOther : devReceived.view = devOther.view := by
  have hacc : devReceived.account = devOther.account := by decide +kernel
  refine allowedRun_view devContents
    (insertRun_devReceived (by decide +kernel) (by decide +kernel)).allowedRun
    (InsertRun.processed (.processed .refl (by decide +kernel) (by decide +kernel))
      (by decide +kernel) (by decide +kernel)).allowedRun fun a => ?_
  exact congrArg (fun t => (t.get a).map AccountInfo.head) hacc

end RsNano.Ledger
