import RsNano.Consensus.RootContainer
import RsNano.Lib.Trace

/-!
# The bounded backlog

A thread rolls back blocks while there are too many unconfirmed ones. It waits until there is no
cool-down and both the ledger and the index of the tracked blocks are over the limit, but for one
second at most, and it does not look at the reason why the wait has ended.

The thread holds the lock of its data from the end of the wait until the targets are gathered. At
all other times the cool-down and the index change arbitrarily, and the number of unconfirmed blocks
in the ledger changes at any time. The map of priorities of a bucket is the list of its entries in
ascending order.
-/

namespace RsNano

open Machine List

structure BoundedBacklogConfig where
  maxBacklog : ℕ
  batchSize : ℕ

structure BacklogEntry where
  hash : BlockHash
  account : Account
  bucketIndex : ℕ
  priority : TimePriority

/-- The map from accounts to hashes only serves to erase entries, and is left out. -/
structure BacklogIndex where
  byHash : Table BlockHash BacklogEntry
  byPriority : List (List (TimePriority × List BlockHash))
  bucketLens : List ℕ

namespace BacklogIndex

variable (index : BacklogIndex)

def top (bucketIndex count : ℕ) (filter : BlockHash → Bool) : List BlockHash :=
  (((index.byPriority.getD bucketIndex []).flatMap Prod.snd).filter filter).take count

def len : ℕ := index.byHash.size

def lenOfBucket (bucketIndex : ℕ) : ℕ := index.bucketLens.getD bucketIndex 0

end BacklogIndex

structure BacklogData where
  stopped : Bool
  coolDown : Bool
  index : BacklogIndex
  config : BoundedBacklogConfig
  bucketCount : ℕ

namespace BacklogData

variable (d : BacklogData)

/-- The condition for which the thread waits, with the number of unconfirmed blocks. -/
def predicate (backlogCount : ℕ) : Bool :=
  if d.coolDown then false
  else d.config.maxBacklog < backlogCount ∧ d.config.maxBacklog < d.index.len

def bucketThreshold : ℕ := d.config.maxBacklog / d.bucketCount

def gatherTargets (maxCount : ℕ) (canRollBack : BlockHash → Bool) : List BlockHash :=
  (range d.bucketCount).flatMap fun bucket =>
    if d.bucketThreshold < d.index.lenOfBucket bucket then
      d.index.top bucket (min maxCount d.config.batchSize) canRollBack
    else []

/-- Nothing is gathered where nothing is asked for. -/
theorem gatherTargets_zero (canRollBack : BlockHash → Bool) :
    d.gatherTargets 0 canRollBack = [] := by
  simp [gatherTargets, BacklogIndex.top]

end BacklogData

/-- Where the thread is in its loop. -/
inductive BacklogPhase
  | waiting
  | awake
  | rollingBack (targets : List BlockHash)
  | pausing

structure BoundedBacklog where
  data : BacklogData
  backlogCount : ℕ
  phase : BacklogPhase

namespace BoundedBacklog

def new (config : BoundedBacklogConfig) (bucketCount : ℕ) : BoundedBacklog :=
  ⟨⟨false, false, ⟨∅, .replicate bucketCount [], .replicate bucketCount 0⟩, config, bucketCount⟩, 0,
    .waiting⟩

inductive Operation
  | setCooldown (coolDown : Bool)
  | setIndex (index : BacklogIndex)
  | setBacklogCount (count : ℕ)
  | stop
  | wake (timedOut : Bool)
  | gather (canRollBack : BlockHash → Bool)
  | resume (index : BacklogIndex)

variable (s : BoundedBacklog)

/-- The lock is free, or held by the thread that takes the step. -/
def Allowed : Operation → Prop
  | .setCooldown _ => s.phase ≠ .awake
  | .setIndex _ => s.phase ≠ .awake
  | .setBacklogCount _ => True
  | .stop => s.phase ≠ .awake
  | .wake timedOut => s.phase = .waiting ∧
      (timedOut = true ∨ s.data.stopped = true ∨ s.data.predicate s.backlogCount = true)
  | .gather _ => s.phase = .awake ∧ s.data.stopped = false
  | .resume _ => s.phase ≠ .awake ∧ s.phase ≠ .waiting

/-- How many blocks are over the limit, of which at most a batch is gathered. -/
def targetCount : ℕ := s.backlogCount - s.data.config.maxBacklog

def apply : Operation → Except Empty BoundedBacklog
  | .setCooldown coolDown => .ok { s with data := { s.data with coolDown } }
  | .setIndex index => .ok { s with data := { s.data with index } }
  | .setBacklogCount count => .ok { s with backlogCount := count }
  | .stop => .ok { s with data := { s.data with stopped := true } }
  | .wake _ => .ok { s with phase := .awake }
  | .gather canRollBack =>
    match s.data.gatherTargets (min s.targetCount s.data.config.batchSize) canRollBack with
    | [] => .ok { s with phase := .pausing }
    | targets => .ok { s with phase := .rollingBack targets }
  | .resume index => .ok { s with data := { s.data with index }, phase := .waiting }

/-- There is no cool-down, and more blocks are tracked than the limit. -/
def Tracked : Prop := s.data.coolDown = false ∧ s.data.config.maxBacklog < s.data.index.len

/-- A wait that ends by its timeout does not end too early. -/
def WakesInTime (x : Transition BoundedBacklog Operation) : Prop :=
  x.operation = .wake true → x.before.data.stopped = true ∨ x.before.Tracked

/-- Targets are gathered for a roll-back. -/
def Gathers (x : Transition BoundedBacklog Operation) : Prop :=
  ∃ canRollBack targets, x.operation = .gather canRollBack ∧ x.after.phase = .rollingBack targets

variable {s s' : BoundedBacklog} {op : Operation}

theorem tracked_of_predicate (h : s.data.predicate s.backlogCount = true) : s.Tracked := by
  simp only [BacklogData.predicate] at h
  grind [Tracked]

/-- The thread is only awake when it is stopped or over the limit. -/
theorem awake_of_apply (h : s.phase = .awake → s.data.stopped = true ∨ s.Tracked)
    (hallow : Allowed s op) (hwakes : WakesInTime ⟨s, op, s'⟩) (hok : apply s op = .ok s') :
    s'.phase = .awake → s'.data.stopped = true ∨ s'.Tracked := by
  cases op with
  | wake timedOut =>
    cases hok
    intro _
    rcases hallow.2 with rfl | hstop | hpredicate
    · exact hwakes rfl
    · exact .inl hstop
    · exact .inr (tracked_of_predicate hpredicate)
  | gather canRollBack =>
    rw [apply] at hok
    split at hok <;> cases hok <;> nofun
  | setBacklogCount count =>
    cases hok
    exact h
  | resume index =>
    cases hok
    nofun
  | setCooldown coolDown | setIndex index | stop => cases hok; exact fun heq => absurd heq hallow

/-- Only a positive number of blocks over the limit gives targets. -/
theorem lt_backlogCount_of_gather {canRollBack : BlockHash → Bool} {targets : List BlockHash}
    (hok : apply s (.gather canRollBack) = .ok s') (hphase : s'.phase = .rollingBack targets) :
    s.data.config.maxBacklog < s.backlogCount := by
  by_contra hle
  have hzero : min s.targetCount s.data.config.batchSize = 0 := by
    rw [targetCount]
    omega
  rw [apply, hzero, BacklogData.gatherTargets_zero] at hok
  cases hok
  cases hphase

/-- In every run in which no wait ends by its timeout while there is a cool-down or too few blocks
are tracked, targets are only gathered without a cool-down and with both numbers over the limit. -/
theorem trace_gated {config : BoundedBacklogConfig} {bucketCount : ℕ}
    {steps : List (Transition BoundedBacklog Operation)}
    (h : Trace apply Allowed (new config bucketCount) steps s)
    (hwakes : ∀ x ∈ steps, WakesInTime x) : ∀ x ∈ steps, Gathers x →
      x.before.data.coolDown = false ∧
      x.before.data.config.maxBacklog < x.before.backlogCount ∧
      x.before.data.config.maxBacklog < x.before.data.index.len := by
  suffices hrun : (s.phase = .awake → s.data.stopped = true ∨ s.Tracked) ∧ ∀ x ∈ steps, Gathers x →
      x.before.Tracked ∧ x.before.data.config.maxBacklog < x.before.backlogCount from
    fun x hx hgathers => ⟨(hrun.2 x hx hgathers).1.1, (hrun.2 x hx hgathers).2,
      (hrun.2 x hx hgathers).1.2⟩
  induction h with
  | nil => exact ⟨nofun, fun _ hx => by cases hx⟩
  | snoc _ hallowed hok ih =>
    simp only [forall_mem_append, forall_mem_singleton] at hwakes ⊢
    obtain ⟨hawake, hsteps⟩ := ih hwakes.1
    refine ⟨awake_of_apply hawake hallowed hwakes.2 hok, hsteps, ?_⟩
    rintro ⟨canRollBack, targets, rfl, hphase⟩
    have htracked := (hawake hallowed.1).resolve_left (by simp [hallowed.2])
    exact ⟨htracked, lt_backlogCount_of_gather hok hphase⟩

/-- Two tracked blocks in the only bucket. -/
def devIndex : BacklogIndex where
  byHash := ((∅ : Table BlockHash BacklogEntry).put 1 ⟨1, 5, 0, ⟨7⟩⟩).put 2 ⟨2, 6, 0, ⟨7⟩⟩
  byPriority := [[(⟨7⟩, [1, 2])]]
  bucketLens := [2]

/-- The limit is one block, and there are three unconfirmed blocks when the wait ends. -/
theorem trace_gated_dev : ∃ steps s, Trace apply Allowed (new ⟨1, 32⟩ 1) steps s ∧
    ∃ x ∈ steps, Gathers x ∧ x.before.data.coolDown = false := by
  have h0 : Trace apply Allowed (new ⟨1, 32⟩ 1) [] _ := .nil
  have h1 := h0.result (.setIndex devIndex) nofun rfl
  have h2 := h1.result (.setBacklogCount 3) trivial rfl
  have h3 := h2.result (.wake false) ⟨rfl, .inr (.inr (by decide +kernel))⟩ rfl
  have h4 := h3.result (.gather fun _ => true) ⟨rfl, rfl⟩ rfl
  refine ⟨_, _, h4, _, mem_append_right _ (.head _), ⟨_, [1, 2], rfl, rfl⟩,
    (trace_gated h4 ?_ _ (mem_append_right _ (.head _)) ⟨_, [1, 2], rfl, rfl⟩).1⟩
  simp only [nil_append, cons_append, forall_mem_cons]
  exact ⟨nofun, nofun, nofun, nofun, fun _ hx => by cases hx⟩

/-- The wait ends by its timeout during a cool-down, and blocks are rolled back. -/
theorem trace_devCooldown : ∃ steps s, Trace apply Allowed (new ⟨1, 32⟩ 1) steps s ∧
    ∃ x ∈ steps, Gathers x ∧ x.before.data.coolDown = true := by
  have h0 : Trace apply Allowed (new ⟨1, 32⟩ 1) [] _ := .nil
  have h1 := h0.result (.setIndex devIndex) nofun rfl
  have h2 := h1.result (.setBacklogCount 3) trivial rfl
  have h3 := h2.result (.setCooldown true) nofun rfl
  have h4 := h3.result (.wake true) ⟨rfl, .inl rfl⟩ rfl
  have h5 := h4.result (.gather fun _ => true) ⟨rfl, rfl⟩ rfl
  exact ⟨_, _, h5, _, mem_append_right _ (.head _), ⟨_, [1, 2], rfl, rfl⟩, rfl⟩

end BoundedBacklog

end RsNano
