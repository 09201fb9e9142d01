import RsNano.Bootstrap.BlockQueue
import RsNano.Ledger.DevNetwork
import RsNano.Lib.Machine
import RsNano.Lib.Stages

/-!
# Coherence of the bootstrap block queue

The tables of the queue are keyed by block hash, the queue by account. In every run the entries of
the tables are front blocks of their accounts, and nothing panics. A front block has an entry only
as long as no other account has the same block in front. The check of the responses does not see
to that: a block of one account can name the head of another one as its previous block, and pass as
an answer for both.
-/

namespace RsNano.BlockQueue

open BlockAckProcessor Function Table List Option

variable {q q' : BlockQueue} {a : Account} {data : AccountBlocks} {hash : BlockHash}

/-- The hash of the front block of an account. -/
def front (q : BlockQueue) (a : Account) : Option BlockHash :=
  (q.accounts.get a).bind fun data => data.blocks.head?.map Block.hash

/-- What holds in every run. -/
structure Sound (q : BlockQueue) : Prop where
  nonempty : ∀ {a data}, q.accounts.get a = some data → data.blocks ≠ []
  staged : Staged q.front q.waitingToBeInsertedIntoBlockProcessor q.inBlockProcessor
  counted : q.blocks = q.accounts.sumBy fun _ data => data.blocks.length

/-- Every front block has its entry. -/
def Coherent (q : BlockQueue) : Prop :=
  Tracked q.front q.waitingToBeInsertedIntoBlockProcessor q.inBlockProcessor

theorem sound_withMaxAccounts (maxAccounts : ℕ) : (withMaxAccounts maxAccounts).Sound :=
  ⟨nofun, Staged.empty, rfl⟩

/-- An account that is not queued has no front block. -/
theorem front_eq_none_iff (hq : q.Sound) : q.front a = none ↔ q.accounts.get a = none := by
  rw [front]
  cases hget : q.accounts.get a with
  | none => simp
  | some data =>
    obtain ⟨first, rest, hbs⟩ := exists_cons_of_ne_nil (hq.nonempty hget)
    simp [hbs]

theorem front_put (a : Account) (data : AccountBlocks) (hq' : q'.accounts = q.accounts.put a data) :
    q'.front = update q.front a (data.blocks.head?.map Block.hash) := by
  funext a'
  rw [front, hq', get_put]
  by_cases ha : a' = a
  · rw [if_pos ha, ha, update_self]
    rfl
  · rw [if_neg ha, update_of_ne ha]
    rfl

theorem front_del (hq' : q'.accounts = q.accounts.del a) : q'.front = update q.front a none := by
  funext a'
  rw [front, hq', get_del]
  by_cases ha : a' = a
  · rw [if_pos ha, ha, update_self]
    rfl
  · rw [if_neg ha, update_of_ne ha]
    rfl

/-! ### Insertion -/

/-- A table without the entry of an item that is in front. -/
def without (t : Table BlockHash Account) : Option BlockHash → Table BlockHash Account
  | none => t
  | some k => t.del k

/-- The queue after the blocks of an account have been replaced. -/
structure Replaced (q : BlockQueue) (data : AccountBlocks) (first : Block) (q' : BlockQueue) :
    Prop where
  accounts : q'.accounts = q.accounts.put data.account data
  waiting : q'.waitingToBeInsertedIntoBlockProcessor =
    (without q.waitingToBeInsertedIntoBlockProcessor (q.front data.account)).put first.hash
      data.account
  processing : q'.inBlockProcessor = without q.inBlockProcessor (q.front data.account)
  counted : q'.blocks = q'.accounts.sumBy fun _ data => data.blocks.length

/-- An insertion returns; it changes nothing, or it replaces the blocks of the account. -/
theorem insert_ok (hq : q.Sound) (data : AccountBlocks) :
    ∃ q' inserted, q.insert data = .ok (q', inserted) ∧
      (q' = q ∨ ∃ first, data.blocks.head? = some first ∧ Replaced q data first q') := by
  rw [insert]
  split
  · exact ⟨q, false, rfl, .inl rfl⟩
  · split
    · exact ⟨q, false, rfl, .inl rfl⟩
    · next first hfirst =>
      have hcnt := hq.counted
      cases hold : q.accounts.get data.account with
      | none =>
        have hsum := sumBy_put_of_none data (fun _ d => d.blocks.length) hold
        refine ⟨_, true, rfl, .inr ⟨first, hfirst, rfl, ?_, ?_, ?_⟩⟩
        · rw [(front_eq_none_iff hq).mpr hold]
          rfl
        · rw [(front_eq_none_iff hq).mpr hold]
          rfl
        · change q.blocks + data.blocks.length = (q.accounts.put data.account data).sumBy _
          omega
      | some old =>
        obtain ⟨oldFirst, rest, hbs⟩ := exists_cons_of_ne_nil (hq.nonempty hold)
        have hfront : q.front data.account = some oldFirst.hash := by
          rw [front, hold, bind_some, hbs]
          rfl
        have hsum := sumBy_put_of_some data (fun _ d => d.blocks.length) hold
        have hlen : ¬ q.blocks + data.blocks.length < old.blocks.length := by omega
        have hforget : ({ q with
              blocks := q.blocks + data.blocks.length
              accounts := q.accounts.put data.account data } : BlockQueue).forget old =
            .ok { q with
              blocks := q.blocks + data.blocks.length - old.blocks.length
              accounts := q.accounts.put data.account data
              waitingToBeInsertedIntoBlockProcessor :=
                q.waitingToBeInsertedIntoBlockProcessor.del oldFirst.hash
              inBlockProcessor := q.inBlockProcessor.del oldFirst.hash } := by
          rw [forget, if_neg hlen, hbs]
          rfl
        simp only [elim_some, hforget, bind, Except.bind]
        refine ⟨_, true, rfl, .inr ⟨first, hfirst, rfl, ?_, ?_, ?_⟩⟩
        · rw [hfront]
          rfl
        · rw [hfront]
          rfl
        · change q.blocks + data.blocks.length - old.blocks.length =
            (q.accounts.put data.account data).sumBy _
          omega

namespace Replaced

variable {first : Block} (h : Replaced q data first q') (hfirst : data.blocks.head? = some first)

include h hfirst

theorem front : q'.front = update q.front data.account (some first.hash) := by
  rw [front_put data.account data h.accounts, hfirst]
  rfl

theorem sound (hq : q.Sound) : q'.Sound := by
  refine ⟨?_, ?_, h.counted⟩
  · intro a d hget
    rw [h.accounts] at hget
    rcases eq_or_of_get_put hget with ⟨-, rfl⟩ | ⟨-, hold⟩
    · intro hnil
      rw [hnil] at hfirst
      cases hfirst
    · exact hq.nonempty hold
  · rw [h.front hfirst, h.waiting, h.processing]
    cases hold : q.front data.account with
    | none =>
      have hsame : update q.front data.account none = q.front := update_eq_self_iff.mpr hold.symm
      exact .offer (hsame.symm ▸ hq.staged) first.hash
    | some k => exact (hq.staged.withdraw hold).offer first.hash

theorem coherent (hq : q.Coherent)
    (hapart : ∀ a, a ≠ data.account → q.front a ≠ some first.hash) : q'.Coherent := by
  rw [Coherent, h.front hfirst, h.waiting, h.processing]
  cases hold : q.front data.account with
  | none =>
    have hsame : update q.front data.account none = q.front := update_eq_self_iff.mpr hold.symm
    rw [Coherent, ← hsame] at hq
    exact hq.offer hapart
  | some k => exact (Tracked.withdraw hq hold).offer hapart

end Replaced

/-! ### Processing -/

/-- The account of an entry is queued, with the block of the entry in front. -/
theorem exists_of_front (hfront : q.front a = some hash) :
    ∃ data first rest, q.accounts.get a = some data ∧ data.blocks = first :: rest ∧
      first.hash = hash := by
  rw [front] at hfront
  cases hget : q.accounts.get a with
  | none =>
    rw [hget] at hfront
    cases hfront
  | some data =>
    cases hbs : data.blocks with
    | nil =>
      rw [hget, bind_some, hbs] at hfront
      cases hfront
    | cons first rest =>
      rw [hget, bind_some, hbs] at hfront
      exact ⟨data, first, rest, rfl, hbs, some.inj hfront⟩

theorem enqueued_sound (hq : q.Sound) (hash : BlockHash) : (q.enqueuedForProcessing hash).Sound := by
  rw [enqueuedForProcessing]
  split
  · exact hq
  · next account hget => exact ⟨hq.nonempty, hq.staged.start hget, hq.counted⟩

theorem enqueued_coherent (hq : q.Coherent) (hash : BlockHash) :
    (q.enqueuedForProcessing hash).Coherent := by
  rw [enqueuedForProcessing]
  split
  · exact hq
  · next account hget => exact Tracked.start hq hget

/-- A block has been processed, and the account has its next block in front. -/
inductive Advanced (q : BlockQueue) (hash : BlockHash) (a : Account) (second : Block) :
    BlockQueue → Prop
  | mk {data : AccountBlocks} {first : Block} {rest : List Block} {n : ℕ}
      (hash_get : q.inBlockProcessor.get hash = some a) (get : q.accounts.get a = some data)
      (blocks : data.blocks = first :: second :: rest) (counter : n + 1 = q.blocks) :
      Advanced q hash a second { q with
        blocks := n
        inBlockProcessor := q.inBlockProcessor.del hash
        accounts := q.accounts.put a { data with blocks := second :: rest }
        waitingToBeInsertedIntoBlockProcessor :=
          q.waitingToBeInsertedIntoBlockProcessor.put second.hash a }

/-- A block has left the block processor, and its account the queue. -/
inductive Dropped (q : BlockQueue) (hash : BlockHash) : BlockQueue → Prop
  | mk {a : Account} {data : AccountBlocks} {n : ℕ}
      (hash_get : q.inBlockProcessor.get hash = some a) (get : q.accounts.get a = some data)
      (counter : n + data.blocks.length = q.blocks) :
      Dropped q hash { q with
        blocks := n
        inBlockProcessor := q.inBlockProcessor.del hash
        accounts := q.accounts.del a }

theorem processed_ok (hq : q.Sound) (hash : BlockHash) :
    ∃ q' info, q.processed hash = .ok (q', info) ∧
      (q' = q ∨ (∃ a second, Advanced q hash a second q') ∨ Dropped q hash q') := by
  cases hin : q.inBlockProcessor.get hash with
  | none =>
    refine ⟨q, ⟨none, false⟩, ?_, .inl rfl⟩
    rw [processed, hin]
  | some a =>
    obtain ⟨data, first, rest, hget, hbs, -⟩ := exists_of_front (hq.staged.front_of_processing hin)
    have hle := le_sumBy (fun _ d => d.blocks.length) hget
    have hpos : ¬ q.blocks = 0 := by
      rw [hq.counted]
      rw [hbs, length_cons] at hle
      omega
    cases rest with
    | nil =>
      refine ⟨_, ⟨some a, true⟩, ?_, .inr (.inr (.mk (n := q.blocks - 1) hin hget ?_))⟩
      · simp only [processed, hin, hget, hbs, if_neg hpos]
        rfl
      · rw [hbs, length_singleton]
        omega
    | cons second rest =>
      refine ⟨_, ⟨some a, false⟩, ?_,
        .inr (.inl ⟨a, second, .mk (n := q.blocks - 1) hin hget hbs (by omega)⟩)⟩
      simp only [processed, hin, hget, hbs, if_neg hpos]
      rfl

theorem processingFailed_ok (hq : q.Sound) (hash : BlockHash) :
    ∃ q' known, q.processingFailed hash = .ok (q', known) ∧ (q' = q ∨ Dropped q hash q') := by
  cases hin : q.inBlockProcessor.get hash with
  | none =>
    refine ⟨q, false, ?_, .inl rfl⟩
    rw [processingFailed, hin]
  | some a =>
    obtain ⟨data, -, -, hget, -, -⟩ := exists_of_front (hq.staged.front_of_processing hin)
    have hle := le_sumBy (fun _ d => d.blocks.length) hget
    have hcounter : ¬ q.blocks < data.blocks.length := by
      rw [hq.counted]
      omega
    refine ⟨_, true, ?_, .inr (.mk (n := q.blocks - data.blocks.length) hin hget (by omega))⟩
    simp only [processingFailed, hin, hget, if_neg hcounter]

theorem Advanced.sound {second : Block} (h : Advanced q hash a second q') (hq : q.Sound) :
    q'.Sound := by
  have hcnt := hq.counted
  obtain @⟨data, first, rest, n, hin, hget, hbs, hcounter⟩ := h
  have hsum := sumBy_put_of_some { data with blocks := second :: rest }
    (fun _ d => d.blocks.length) hget
  refine ⟨?_, ?_, ?_⟩
  · exact forall_get_put hq.nonempty (cons_ne_nil _ _)
  · rw [front_put a { data with blocks := second :: rest } rfl]
    exact (hq.staged.finish hin).offer second.hash
  · simp only [hbs, length_cons] at hsum ⊢
    omega

theorem Advanced.coherent {second : Block} (h : Advanced q hash a second q') (hq : q.Coherent)
    (hapart : ∀ a', a' ≠ a → q.front a' ≠ some second.hash) : q'.Coherent := by
  obtain @⟨data, -, rest, n, hin, -, -, -⟩ := h
  rw [Coherent, front_put a { data with blocks := second :: rest } rfl]
  exact (Tracked.finish hq hin).offer hapart

theorem Dropped.sound (h : Dropped q hash q') (hq : q.Sound) : q'.Sound := by
  have hcnt := hq.counted
  obtain @⟨a, data, n, hin, hget, hcounter⟩ := h
  have hsum := sumBy_del_of_some (fun _ d => d.blocks.length) hget
  refine ⟨?_, ?_, ?_⟩
  · intro a' data' hget'
    exact hq.nonempty (get_of_get_del hget').2
  · rw [front_del rfl]
    exact hq.staged.finish hin
  · change n = (q.accounts.del a).sumBy _
    omega

theorem Dropped.coherent (h : Dropped q hash q') (hq : q.Coherent) : q'.Coherent := by
  obtain @⟨a, -, n, hin, -, -⟩ := h
  rw [Coherent, front_del rfl]
  exact Tracked.finish hq hin

/-- The next block to process is the front block of an account that waits. -/
theorem nextToProcess_ok (hq : q.Sound) {order : List BlockHash}
    (hord : q.waitingToBeInsertedIntoBlockProcessor.IsOrder order) :
    ∃ next, q.nextToProcess order = .ok next ∧
      (next = none → ∀ h, q.waitingToBeInsertedIntoBlockProcessor.get h = none) := by
  cases order with
  | nil =>
    refine ⟨none, rfl, fun _ h => ?_⟩
    cases hget : q.waitingToBeInsertedIntoBlockProcessor.get h with
    | none => rfl
    | some a => exact absurd (hord.mem_iff.mpr ⟨a, hget⟩) not_mem_nil
  | cons h rest =>
    obtain ⟨a, hwait⟩ := hord.mem_iff.mp mem_cons_self
    obtain ⟨data, first, blocks, hget, hbs, -⟩ := exists_of_front (hq.staged.front_of_waiting hwait)
    refine ⟨some (first, data.queryId), ?_, nofun⟩
    simp only [nextToProcess, head?_cons, bind_some, hwait, hget, hbs]

/-! ### Runs -/

inductive Operation
  | ack (query : RunningQuery) (response : BlocksAckPayload)
  | enqueued (hash : BlockHash)
  | processed (hash : BlockHash)
  | processingFailed (hash : BlockHash)

def apply (q : BlockQueue) : Operation → Except BlockQueuePanic BlockQueue
  | .ack query response => do return (← process q query response).1
  | .enqueued hash => .ok (q.enqueuedForProcessing hash)
  | .processed hash => do return (← q.processed hash).1
  | .processingFailed hash => do return (← q.processingFailed hash).1

/-- The operation does not give an account the front block of another one. -/
def KeepsApart (q : BlockQueue) : Operation → Prop
  | .ack query response => query.verifyBlocks response = .ok →
    ∀ first ∈ (newBlocks query response).head?, ∀ a, a ≠ query.account →
      q.front a ≠ some first.hash
  | .processed hash => ∀ a data second, q.inBlockProcessor.get hash = some a →
    q.accounts.get a = some data → data.blocks[1]? = some second →
    ∀ a', a' ≠ a → q.front a' ≠ some second.hash
  | _ => True

/-- Only responses with blocks pass the check. -/
theorem length_ne_zero_of_verifyBlocks {query : RunningQuery} {response : BlocksAckPayload}
    (h : query.verifyBlocks response = .ok) : response.blocks.length ≠ 0 := by
  intro hzero
  have hnil := length_eq_zero_iff.mp hzero
  rw [RunningQuery.verifyBlocks, hnil] at h
  split at h
  · cases h
  · split at h <;> cases h

/-- Every operation returns and keeps what holds in every run, and the entries of the front blocks
if it keeps them apart. -/
theorem apply_ok (hq : q.Sound) (op : Operation) :
    ∃ q', q.apply op = .ok q' ∧ q'.Sound ∧ (q.Coherent → q.KeepsApart op → q'.Coherent) := by
  cases op with
  | ack query response =>
    cases hver : query.verifyBlocks response with
    | ok =>
      obtain ⟨q', inserted, hins, hcases⟩ :=
        insert_ok hq ⟨query.account, query.id, newBlocks query response⟩
      refine ⟨q', ?_, ?_, ?_⟩
      · simp only [apply, process, hver, processValidBlocks,
          if_neg (length_ne_zero_of_verifyBlocks hver), hins, bind, Except.bind, pure,
          Except.pure]
      · rcases hcases with rfl | ⟨first, hfirst, hrepl⟩
        · exact hq
        · exact hrepl.sound hfirst hq
      · intro hcoh hapart
        rcases hcases with rfl | ⟨first, hfirst, hrepl⟩
        · exact hcoh
        · exact hrepl.coherent hfirst hcoh (hapart hver first hfirst)
    | nothingNew | invalid =>
      refine ⟨q, ?_, hq, fun hcoh _ => hcoh⟩
      rw [apply, process, hver]
      rfl
  | enqueued hash =>
    exact ⟨_, rfl, enqueued_sound hq hash, fun hcoh _ => enqueued_coherent hcoh hash⟩
  | processed hash =>
    obtain ⟨q', info, hproc, hcases⟩ := processed_ok hq hash
    refine ⟨q', ?_, ?_, ?_⟩
    · simp only [apply, hproc, bind, Except.bind, pure, Except.pure]
    · rcases hcases with rfl | ⟨a, second, hadv⟩ | hdrop
      · exact hq
      · exact hadv.sound hq
      · exact hdrop.sound hq
    · intro hcoh hapart
      rcases hcases with rfl | ⟨a, second, hadv⟩ | hdrop
      · exact hcoh
      · refine hadv.coherent hcoh ?_
        obtain @⟨data, first, rest, n, hin, hget, hbs, -⟩ := hadv
        exact hapart a data second hin hget (by rw [hbs]; rfl)
      · exact hdrop.coherent hcoh
  | processingFailed hash =>
    obtain ⟨q', known, hfailed, hcases⟩ := processingFailed_ok hq hash
    refine ⟨q', ?_, ?_, ?_⟩
    · simp only [apply, hfailed, bind, Except.bind, pure, Except.pure]
    · rcases hcases with rfl | hdrop
      · exact hq
      · exact hdrop.sound hq
    · intro hcoh _
      rcases hcases with rfl | hdrop
      · exact hcoh
      · exact hdrop.coherent hcoh

/-- In every run that keeps the front blocks of different accounts apart, the front block of every
queued account maps to this account in exactly one of the tables, and the tables contain nothing
else. A block is there to be processed next as long as an account waits. -/
theorem run_coherent {maxAccounts : ℕ}
    (h : Machine.Run apply KeepsApart (withMaxAccounts maxAccounts) q) :
    (∀ a data, q.accounts.get a = some data → ∃ first, data.blocks.head? = some first ∧
      Xor (q.waitingToBeInsertedIntoBlockProcessor.get first.hash = some a)
        (q.inBlockProcessor.get first.hash = some a)) ∧
    (∀ hash a, q.waitingToBeInsertedIntoBlockProcessor.get hash = some a ∨
        q.inBlockProcessor.get hash = some a →
      ∃ data first, q.accounts.get a = some data ∧ data.blocks.head? = some first ∧
        first.hash = hash) ∧
    q.blocks = (q.accounts.sumBy fun _ data => data.blocks.length) ∧
    (∀ op, ∃ q', q.apply op = .ok q') ∧
    ∀ order, q.waitingToBeInsertedIntoBlockProcessor.IsOrder order →
      ∃ next, q.nextToProcess order = .ok next ∧
        (next = none → ∀ hash, q.waitingToBeInsertedIntoBlockProcessor.get hash = none) := by
  obtain ⟨hq, hcoherent⟩ : q.Sound ∧ q.Coherent := by
    refine h.invariant_of_ok (P := fun q => q.Sound ∧ q.Coherent)
      ⟨sound_withMaxAccounts maxAccounts, Tracked.empty⟩ ?_
    intro q op hq hapart
    obtain ⟨q1, hok, hq1, hcoherent⟩ := apply_ok hq.1 op
    exact ⟨q1, hok, hq1, hcoherent hq.2 hapart⟩
  refine ⟨?_, ?_, hq.counted, ?_, fun order horder => nextToProcess_ok hq horder⟩
  · intro a data hget
    obtain ⟨first, rest, hblocks⟩ := List.exists_cons_of_ne_nil (hq.nonempty hget)
    have hfront : q.front a = some first.hash := by
      rw [front, hget, bind_some, hblocks]
      rfl
    refine ⟨first, by rw [hblocks]; rfl, ?_⟩
    rcases hcoherent.tracked hfront with hwaiting | hprocessing
    · exact .inl ⟨hwaiting, hcoherent.exclusive hwaiting⟩
    · exact .inr ⟨hprocessing, fun hwaiting => hcoherent.exclusive hwaiting hprocessing⟩
  · intro hash a hentry
    have hfront : q.front a = some hash := by
      rcases hentry with hwaiting | hprocessing
      · exact hq.staged.front_of_waiting hwaiting
      · exact hq.staged.front_of_processing hprocessing
    obtain ⟨data, first, rest, hget, hblocks, hhash⟩ := exists_of_front hfront
    exact ⟨data, first, hget, by rw [hblocks]; rfl, hhash⟩
  · intro op
    obtain ⟨q', hok, -⟩ := apply_ok hq op
    exact ⟨q', hok⟩

/-! ### A stuck account -/

/-- A block of the account of key one that names the genesis block of the dev network as its
previous block. -/
def devForeign : StateBlock where
  account := ⟨devKeyOne⟩
  previous := devGenesisBlock.hash
  representative := ⟨devKeyOne⟩
  balance := 1
  link := 0
  signature := 0
  work := 0
  hash := ⟨0x2102eade235a8c4b9ed8f28a2e2a6886333fe84fa613b69352a5789ed3cc3156⟩
  hash_ne_zero := by decide

/-- A query for the blocks of the account of key one. -/
def devAccountQuery : RunningQuery :=
  .fromSpec 1 ⟨.blocks ⟨.account, ⟨devKeyOne⟩, 128⟩, ⟨devKeyOne⟩, 0⟩ 0 5000

/-- A query for the blocks of the genesis account behind its head. -/
def devHeadQuery : RunningQuery :=
  .fromSpec 2 ⟨.blocks ⟨.block, devGenesisBlock.hash.into .hashOrAccount, 128⟩, ⟨devGenesisKey⟩,
    devGenesisBlock.hash⟩ 0 5000

def devAccountResponse : BlocksAckPayload := ⟨[.state devForeign], by decide⟩

def devHeadResponse : BlocksAckPayload :=
  ⟨[.legacyOpen devGenesisBlock, .state devForeign], by decide⟩

/-- The queue after the first response. -/
def devQueued : BlockQueue :=
  Machine.result apply (withMaxAccounts defaultMaxAccounts) (.ack devAccountQuery devAccountResponse)

/-- After one response the account is queued, and its front block has one entry. -/
theorem run_coherent_devQueued :
    ∃ data first, devQueued.accounts.get ⟨devKeyOne⟩ = some data ∧
      data.blocks.head? = some first ∧
      Xor (devQueued.waitingToBeInsertedIntoBlockProcessor.get first.hash = some ⟨devKeyOne⟩)
        (devQueued.inBlockProcessor.get first.hash = some ⟨devKeyOne⟩) := by
  have hqueued : (devQueued.accounts.get ⟨devKeyOne⟩).isSome = true := by decide +kernel
  obtain ⟨data, hget⟩ := isSome_iff_exists.mp hqueued
  have hrun : Machine.Run apply KeepsApart (withMaxAccounts defaultMaxAccounts) devQueued := by
    refine .result .refl ?_ (by decide +kernel)
    intro _ first _ a _ hfront
    cases hfront
  obtain ⟨first, hfirst, hentry⟩ := (run_coherent hrun).1 _ data hget
  exact ⟨data, first, hget, hfirst, hentry⟩

/-- The same block answers the queries for two accounts. When it has been processed for one of
them, the other one is still queued, and its front block is in neither table. -/
theorem exists_stuck_account :
    devAccountQuery.account ≠ devHeadQuery.account ∧
      devAccountQuery.verifyBlocks devAccountResponse = .ok ∧
      devHeadQuery.verifyBlocks devHeadResponse = .ok ∧
      ∃ q, [.ack devAccountQuery devAccountResponse, .ack devHeadQuery devHeadResponse,
          .enqueued devForeign.hash, .processed devForeign.hash].foldlM apply
          (withMaxAccounts defaultMaxAccounts) = .ok q ∧
        (q.accounts.get ⟨devKeyOne⟩).map (fun data => data.blocks.map Block.hash) =
          some [devForeign.hash] ∧
        q.waitingToBeInsertedIntoBlockProcessor.get devForeign.hash = none ∧
        q.inBlockProcessor.get devForeign.hash = none := by
  refine ⟨by decide, by decide +kernel, by decide +kernel, ?_⟩
  obtain ⟨q, hrun, htest⟩ := exists_eq_ok (p := fun q : BlockQueue => decide
    ((q.accounts.get ⟨devKeyOne⟩).map (fun data => data.blocks.map Block.hash) =
        some [devForeign.hash] ∧
      q.waitingToBeInsertedIntoBlockProcessor.get devForeign.hash = none ∧
      q.inBlockProcessor.get devForeign.hash = none))
    (x := [.ack devAccountQuery devAccountResponse, .ack devHeadQuery devHeadResponse,
      .enqueued devForeign.hash, .processed devForeign.hash].foldlM apply
      (withMaxAccounts defaultMaxAccounts)) (by decide +kernel)
  exact ⟨q, hrun, of_decide_eq_true htest⟩

end RsNano.BlockQueue
