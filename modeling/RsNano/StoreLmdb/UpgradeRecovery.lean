import RsNano.StoreLmdb.UpgradeFidelity

/-!
# Upgrades that are killed

Every step of an upgrade commits its tables first and the new version in a transaction of its own.
A store that is left between the two commits of the second step is upgraded by the next start, as
its block table is gone. Between those of the first step it is not: the successors are there, and
none of them can be appended again.
-/

namespace RsNano

def upgradeStep (version : ℤ) (env : LmdbEnvironment) : Except StoreError LmdbEnvironment :=
  if version = 24 then createSuccessorTable env
  else if version = 10000 then removeSuccessorFromSidebandAndUpgradeTimestampAndSplitTable env
  else .error .unreachable

/-- The stores that `upgradeLoop` commits, in order. -/
def upgradeLoopCommits : ℕ → ℤ → LmdbEnvironment → List LmdbEnvironment
  | 0, _, _ => []
  | n + 1, version, env =>
    if version = storeVersionCurrent then []
    else
      match upgradeStep version env with
      | .error _ => []
      | .ok tables =>
        let env := { tables with version := some (nextVersion version) }
        tables :: env :: upgradeLoopCommits n (nextVersion version) env

/-- The stores that `doUpgrades` can leave when it is killed. -/
def upgradeCommits (env : LmdbEnvironment) : List LmdbEnvironment :=
  let version := env.version.getD storeVersionCurrent
  let read := { env with version := some version }
  env :: read :: upgradeLoopCommits (storeVersionCurrent - version).toNat version read

variable {env final killed : LmdbEnvironment} {vacuum : Bool}

theorem putAppend_ok {t t' : Table BlockHash (List Byte)} {k : BlockHash} {v : List Byte}
    (h : putAppend U256.byteLe t k v = .ok t') : t.get k = none ∧ t' = t.put k v := by
  rw [putAppend, Table.append] at h
  split_ifs at h with hlast
  · refine ⟨?_, (Except.ok.inj h).symm⟩
    by_contra hsome
    obtain ⟨w, hw⟩ := Option.ne_none_iff_exists'.mp hsome
    exact (hlast k (Table.mem_keys_iff.mpr ⟨w, hw⟩)).2 rfl

/-- Every key that was copied has a successor, and those that were there keep theirs. -/
theorem get_ne_none_of_createSuccessor {blocks t t' : Table BlockHash (List Byte)}
    {ks : List BlockHash} (h : ks.foldlM (createSuccessor blocks) t = .ok t') :
    ∀ k, k ∈ ks ∨ t.get k ≠ none → t'.get k ≠ none := by
  induction ks generalizing t with
  | nil => simp_all
  | cons k0 ks ih =>
    simp only [List.foldlM_cons, createSuccessor, bind_eq_ok] at h
    obtain ⟨_, ⟨v, -, hput⟩, hrest⟩ := h
    obtain ⟨-, rfl⟩ := putAppend_ok hput
    intro k hk
    refine ih hrest k ?_
    rw [Table.get_put]
    grind

/-- A successor table that was filled from some block cannot be filled again. -/
theorem createSuccessorTable_twice {env' env'' : LmdbEnvironment}
    (h : createSuccessorTable env = .ok env') (h' : createSuccessorTable env' = .ok env'') :
    env' = env := by
  simp only [createSuccessorTable, bind_eq_ok, pure_eq_ok] at h h'
  obtain ⟨successors, hfold, rfl⟩ := h
  obtain ⟨_, hfold', -⟩ := h'
  have hall := get_ne_none_of_createSuccessor hfold
  cases hkeys : env.blocks.sortedKeys U256.byteLe with
  | nil =>
    rw [hkeys] at hfold
    cases hfold
    rfl
  | cons k ks =>
    simp only [hkeys, List.foldlM_cons, createSuccessor, bind_eq_ok] at hfold'
    obtain ⟨_, ⟨_, -, hput⟩, -⟩ := hfold'
    exact absurd (putAppend_ok hput).1 (hall k (.inl (hkeys ▸ List.mem_cons_self)))

theorem upgradeCommits_10000 (h : env.version = some 10000) : upgradeCommits env = env :: env ::
    match removeSuccessorFromSidebandAndUpgradeTimestampAndSplitTable env with
    | .error _ => []
    | .ok tables => [tables, { tables with version := some storeVersionCurrent }] := by
  obtain ⟨_, blocks, successors, blockIndex, blockData⟩ := env
  cases h
  rfl

theorem upgradeCommits_24 (h : env.version = some 24) : upgradeCommits env = env :: env ::
    match createSuccessorTable env with
    | .error _ => []
    | .ok tables => tables :: (upgradeCommits { tables with version := some 10000 }).tail := by
  obtain ⟨_, blocks, successors, blockIndex, blockData⟩ := env
  cases h
  rfl

/-- Killed at any point of the second step, the store is upgraded by the next start. -/
theorem doUpgrades_killed_10000 (hver : env.version = some 10000)
    (hok : doUpgrades env = .ok (vacuum, final)) (hkilled : killed ∈ upgradeCommits env) :
    killed.version ≠ some 24 ∧ ∃ vacuum, doUpgrades killed = .ok (vacuum, final) := by
  have hup := hok
  rw [doUpgrades_10000 hver] at hup
  obtain ⟨tables, hspl, hfin⟩ := bind_eq_ok.mp hup
  cases hfin
  rw [upgradeCommits_10000 hver, hspl] at hkilled
  obtain ⟨t, -, htables⟩ := bind_eq_ok.mp hspl
  cases htables
  have hne : env.version ≠ some 24 := by simp [hver]
  rcases hkilled with _ | ⟨_, _ | ⟨_, _ | ⟨_, _ | ⟨_, ⟨⟩⟩⟩⟩⟩
  · exact ⟨hne, _, hok⟩
  · exact ⟨hne, _, hok⟩
  · refine ⟨hne, true, ?_⟩
    rw [doUpgrades_10000 (by exact hver),
      removeSuccessorFromSidebandAndUpgradeTimestampAndSplitTable, Table.sortedKeys_empty]
    rfl
  · exact ⟨by simp [storeVersionCurrent], false, rfl⟩

/-- An upgrade that was killed ends as an uninterrupted one when it is started again, unless it was
killed when some successors were committed and the new version was not. -/
theorem doUpgrades_killed_iff (hversion : env.version = some 24 ∨ env.version = some 10000)
    (hok : doUpgrades env = .ok (vacuum, final)) (hkilled : killed ∈ upgradeCommits env) :
    (∃ vacuum, doUpgrades killed = .ok (vacuum, final)) ↔
      ¬ (killed.version = some 24 ∧ killed.successors ≠ env.successors) := by
  rcases hversion with hversion | hversion
  · have hupgrade := hok
    rw [doUpgrades_24 hversion] at hupgrade
    obtain ⟨tables, hcreate, hrest⟩ := bind_eq_ok.mp hupgrade
    rw [upgradeCommits_24 hversion, hcreate] at hkilled
    rcases hkilled with _ | ⟨_, _ | ⟨_, _ | ⟨_, hlater⟩⟩⟩
    · exact iff_of_true ⟨_, hok⟩ fun h => h.2 rfl
    · exact iff_of_true ⟨_, hok⟩ fun h => h.2 rfl
    · constructor
      · rintro ⟨_, hagain⟩ ⟨hversion', hne⟩
        rw [doUpgrades_24 hversion'] at hagain
        obtain ⟨_, hcreate', -⟩ := bind_eq_ok.mp hagain
        exact hne (congrArg _ (createSuccessorTable_twice hcreate hcreate'))
      · intro h
        obtain ⟨_, -, htables⟩ := bind_eq_ok.mp hcreate
        cases htables
        obtain rfl := not_not.mp fun hne => h ⟨hversion, hne⟩
        exact ⟨_, hok⟩
    · obtain ⟨hne, hagain⟩ := doUpgrades_killed_10000 rfl hrest (List.mem_of_mem_tail hlater)
      exact iff_of_true hagain fun h => hne h.1
  · obtain ⟨hne, hagain⟩ := doUpgrades_killed_10000 hversion hok hkilled
    exact iff_of_true hagain fun h => hne h.1

open V24Store

theorem doUpgrades_killed_exampleStore : ∃ final killed,
    doUpgrades exampleStore.env = .ok (true, final) ∧ killed ∈ upgradeCommits exampleStore.env ∧
      killed.version = some 10000 ∧ ∃ vacuum, doUpgrades killed = .ok (vacuum, final) := by
  obtain ⟨final, hok, -⟩ := exampleStore.doUpgrades_env
  obtain ⟨successors, hcreate, -⟩ := exampleStore.createSuccessorTable_env
  have hkilled : { exampleStore.env with successors := successors, version := some 10000 } ∈
      upgradeCommits exampleStore.env := by
    rw [upgradeCommits_24 rfl, hcreate]
    exact .tail _ (.tail _ (.tail _ (.head _)))
  exact ⟨final, _, hok, hkilled, rfl, (doUpgrades_killed_iff (.inl rfl) hok hkilled).mpr nofun⟩

/-- An upgrade that was killed behind the first commit fails at every later start. -/
theorem doUpgrades_killed_error : ∃ final killed,
    doUpgrades exampleStore.env = .ok (true, final) ∧ killed ∈ upgradeCommits exampleStore.env ∧
      ∀ result, doUpgrades killed ≠ .ok result := by
  obtain ⟨final, hok, -⟩ := exampleStore.doUpgrades_env
  obtain ⟨successors, hcreate, hlisted⟩ := exampleStore.createSuccessorTable_env
  refine ⟨final, { exampleStore.env with successors }, hok, ?_, fun result hagain => ?_⟩
  · rw [upgradeCommits_24 rfl, hcreate]
    exact .tail _ (.tail _ (.head _))
  · rw [doUpgrades_24 rfl] at hagain
    obtain ⟨_, hcreate', -⟩ := bind_eq_ok.mp hagain
    have hempty : successors = ∅ :=
      congrArg LmdbEnvironment.successors (createSuccessorTable_twice hcreate hcreate')
    have hget := hlisted exampleSend.hash
    rw [hempty, if_pos (exampleStore.mem_keys.mpr ⟨_, exampleRecords_send⟩)] at hget
    cases hget

end RsNano
