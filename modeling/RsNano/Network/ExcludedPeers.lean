import RsNano.Lib.Index
import RsNano.Lib.Machine
import RsNano.Lib.Numbering
import RsNano.Network.PeerExclusion

/-!
# The index of the excluded peers

The dates at which exclusions end are an index of the peers by address: a peer that misbehaves
again moves to its new date, and a peer that is evicted is the last one of the earliest date. Two
history variables follow what was reported: the bans, and how often each stored peer misbehaved.
-/

namespace RsNano

open Index Function Machine Table

namespace PeerExclusion

variable {d : PeersOrderedByExclusionDate} {byIp : Table Ipv6Addr Peer} {ip : Ipv6Addr}
  {date : Timestamp}

namespace PeersOrderedByExclusionDate

theorem remove_ok {key : Ipv6Addr → Option Timestamp} (h : Indexes d key)
    (hkey : key ip = some date) :
    ∃ d', d.remove ip date = .ok d' ∧ Indexes d' (update key ip none) := by
  obtain ⟨ips, hget, hmem⟩ := h.get_of_key hkey
  refine ⟨withdraw d date ips ip, ?_, h.withdraw hkey hget⟩
  rw [remove, hget, withdraw_eq_of_nodup hmem (h.nodup_of_get hget)]
  simp only [List.isEmpty_iff]

/-- The peer that is popped has the earliest date. -/
theorem pop_ok (h : Indexes d (keyOf Peer.excludeUntil byIp)) (hpos : 0 < byIp.size) :
    ∃ ip p d', d.pop = .ok (some (ip, d')) ∧ byIp.get ip = some p ∧
      (∀ ip' p', byIp.get ip' = some p' → p.excludeUntil ≤ p'.excludeUntil) ∧
      Indexes d' (keyOf Peer.excludeUntil (byIp.del ip)) := by
  have hdate : ∀ {ip p}, byIp.get ip = some p → ∃ ips, d.get p.excludeUntil = some ips :=
    fun hget => (h.get_of_key (keyOf_of_get hget)).imp fun _ => And.left
  cases hdates : sortedKeys d (· ≤ ·) with
  | nil =>
    obtain ⟨⟨ip, p⟩, hmem⟩ := Multiset.card_pos_iff_exists_mem.mp hpos
    have hlist := (mem_sortedKeys (· ≤ ·)).mpr (hdate (mem_entries_iff.mp hmem))
    rw [hdates] at hlist
    cases hlist
  | cons instant rest =>
    have hhead : (sortedKeys d (· ≤ ·)).head? = some instant := by
      rw [hdates, List.head?_cons]
    obtain ⟨ips, hips⟩ := (mem_sortedKeys (· ≤ ·)).mp (List.mem_of_head? hhead)
    obtain ⟨others, ip, rfl⟩ := (List.eq_nil_or_concat' ips).resolve_left (h.ne_nil hips)
    have hmem : ip ∈ others ++ [ip] := by simp
    have hkey := h.lists.key_of_mem hips hmem
    have hnd := h.nodup_of_get hips
    have hothers : (others ++ [ip]).filter (· ≠ ip) = others := by
      rw [List.nodup_append] at hnd
      simp [List.filter_eq_self]
      grind
    obtain ⟨p, hget, rfl⟩ := keyOf_eq_some.mp hkey
    refine ⟨ip, p, withdraw d p.excludeUntil (others ++ [ip]) ip, ?_, hget,
      fun ip' p' hget' => ?_, ?_⟩
    · rw [withdraw_eq_of_nodup hmem hnd, hothers, pop, hdates]
      simp [hips]
    · obtain ⟨ips', hips'⟩ := hdate hget'
      exact head_sortedKeys_le (· ≤ ·) hhead hips'
    · rw [keyOf_del]
      exact h.withdraw hkey hips

end PeersOrderedByExclusionDate

open PeersOrderedByExclusionDate

/-- Every stored peer is found under its address and under its date, there is room for them, and
the bans and the scores are those that were reported. -/
structure Coherent (maxSize : ℕ) (banned : List SocketAddrV6) (recorded : Ipv6Addr → ℕ)
    (x : PeerExclusion) : Prop where
  address : ∀ {ip p}, x.byIp.get ip = some p → p.address.ip = ip
  indexes : Indexes x.orderedByDate (keyOf Peer.excludeUntil x.byIp)
  score : ∀ {ip p}, x.byIp.get ip = some p → p.score = BitVec.ofNat 64 (recorded ip)
  size_le : x.byIp.size ≤ max 2 maxSize
  maxSize_eq : x.maxSize = maxSize
  banned : ∀ {a}, a ∈ x.permaBans ↔ a ∈ banned

namespace Coherent

variable {maxSize n : ℕ} {banned : List SocketAddrV6} {recorded : Ipv6Addr → ℕ}
  {x : PeerExclusion} {p : Peer} (h : Coherent maxSize banned recorded x)

include h

/-- A peer is forgotten. -/
theorem del (hget : x.byIp.get ip = some p)
    (hidx : Indexes d (keyOf Peer.excludeUntil (x.byIp.del ip))) :
    Coherent maxSize banned recorded { x with byIp := x.byIp.del ip, orderedByDate := d } where
  address hdel := h.address (get_of_get_del hdel).2
  indexes := hidx
  score hdel := h.score (get_of_get_del hdel).2
  size_le := by
    have hsize := size_del_of_some hget
    have hle := h.size_le
    dsimp only
    omega
  maxSize_eq := h.maxSize_eq
  banned := h.banned

/-- A peer is stored with a new score. -/
theorem put (hpeer : p.address.ip = ip) (hscore : p.score = BitVec.ofNat 64 n)
    (hidx : Indexes d (keyOf Peer.excludeUntil (x.byIp.put ip p)))
    (hsize : (x.byIp.put ip p).size ≤ max 2 maxSize) :
    Coherent maxSize banned (update recorded ip n)
      { x with byIp := x.byIp.put ip p, orderedByDate := d } where
  address := forall_get_put h.address hpeer
  indexes := hidx
  score {ip' p'} hget := by
    rcases eq_or_of_get_put hget with ⟨rfl, rfl⟩ | ⟨hne, hold⟩
    · rw [update_self, hscore]
    · rw [update_of_ne hne, h.score hold]
  size_le := hsize
  maxSize_eq := h.maxSize_eq
  banned := h.banned

/-- At most one peer is evicted, and it has the earliest date. -/
theorem cleanOldPeers : ∃ x', cleanOldPeers x.byIp.size x = .ok x' ∧
    Coherent maxSize banned recorded x' ∧ x'.byIp.size < max 2 maxSize ∧
    (∀ ip, x.byIp.get ip = none → x'.byIp.get ip = none) ∧
    ∀ ip p, x.byIp.get ip = some p → x'.byIp.get ip = none →
      ∀ ip' p', x.byIp.get ip' = some p' → p.excludeUntil ≤ p'.excludeUntil := by
  have hle := h.size_le
  have hmax := h.maxSize_eq
  have hdone : ∀ {n x}, ¬ (1 < x.byIp.size ∧ x.maxSize ≤ x.byIp.size) →
      PeerExclusion.cleanOldPeers n x = .ok x := by
    intro n x hroom
    cases n <;> simp [PeerExclusion.cleanOldPeers, hroom]
  by_cases hfull : 1 < x.byIp.size ∧ x.maxSize ≤ x.byIp.size
  · obtain ⟨ip, p, d, hpop, hget, hearliest, hidx⟩ := pop_ok h.indexes (Nat.zero_lt_of_lt hfull.1)
    have hsize := size_del_of_some hget
    obtain ⟨n, hn⟩ : ∃ n, x.byIp.size = n + 1 := ⟨x.byIp.size - 1, by omega⟩
    refine ⟨_, ?_, h.del hget hidx, ?_, fun ip' hnone => ?_, fun ip' p' hget' hnone => ?_⟩
    · rw [hn, PeerExclusion.cleanOldPeers, if_pos hfull, hpop]
      exact hdone (by dsimp only; omega)
    · dsimp only
      omega
    · simp [get_del, hnone]
    · rw [get_del] at hnone
      split at hnone
      · next heq =>
        subst heq
        cases hget.symm.trans hget'
        exact hearliest
      · cases hget'.symm.trans hnone
  · exact ⟨x, hdone hfull, h, by omega, fun _ => id, fun ip p hget hnone => by
      cases hget.symm.trans hnone⟩

/-- A peer that misbehaves is stored under its new date. Only an eviction removes a peer. -/
theorem peerMisbehaved (endpoint : SocketAddrV6) (now : Timestamp) :
    ∃ x', x.peerMisbehaved endpoint now = .ok x' ∧
      Coherent maxSize banned (update recorded endpoint.ip
        ((if (x.byIp.get endpoint.ip).isSome then recorded endpoint.ip else 0) + 1)) x' ∧
      ∀ ip p, x.byIp.get ip = some p → x'.byIp.get ip = none →
        ∀ ip' p', x.byIp.get ip' = some p' → p.excludeUntil ≤ p'.excludeUntil := by
  cases hget : x.byIp.get endpoint.ip with
  | none =>
    obtain ⟨x1, hclean, h1, hsize, hnone, hearliest⟩ := h.cleanOldPeers
    have hnew := hnone _ hget
    refine ⟨x1.insert (.new endpoint now), ?_, h1.put rfl rfl ?_ ?_, fun ip p hip hgone => ?_⟩
    · simp [PeerExclusion.peerMisbehaved, hget, hclean]
    · rw [keyOf_put]
      exact h1.indexes.push (by simp [keyOf, Peer.new, hnew])
    · exact (size_put_of_none _ hnew).trans_le hsize
    · refine hearliest ip p hip ?_
      simp only [insert, get_put] at hgone
      split at hgone
      · cases hgone
      · exact hgone
  | some old =>
    have haddress : (old.misbehaved now).address.ip = endpoint.ip := h.address (p := old) hget
    have hscore : (old.misbehaved now).score = BitVec.ofNat 64 (recorded endpoint.ip + 1) := by
      rw [BitVec.ofNat_add, ← h.score hget]
      rfl
    obtain ⟨d, hd, hidx⟩ : ∃ d, x.peerMisbehaved endpoint now =
        .ok { x with byIp := x.byIp.put endpoint.ip (old.misbehaved now), orderedByDate := d } ∧
        Indexes d (keyOf Peer.excludeUntil (x.byIp.put endpoint.ip (old.misbehaved now))) := by
      by_cases hdate : (old.misbehaved now).excludeUntil = old.excludeUntil
      · refine ⟨x.orderedByDate, by simp [PeerExclusion.peerMisbehaved, hget, hdate], ?_⟩
        rw [keyOf_put_of_eq hget hdate]
        exact h.indexes
      · obtain ⟨d, hrem, hidx⟩ := remove_ok h.indexes (keyOf_of_get hget)
        refine ⟨d.insert endpoint.ip (old.misbehaved now).excludeUntil, ?_, ?_⟩
        · simp [PeerExclusion.peerMisbehaved, hget, hdate, updateExclusionEnd, haddress, hrem]
        · rw [keyOf_put]
          exact hidx.relist
    refine ⟨_, hd, h.put haddress hscore hidx
      ((size_put_of_some _ hget).trans_le h.size_le), fun ip p hip hgone => ?_⟩
    simp only [get_put] at hgone
    split at hgone
    · cases hgone
    · cases hip.symm.trans hgone

theorem isExcluded (peerAddr : SocketAddrV6) (now : Timestamp) :
    ∃ b x', x.isExcluded peerAddr now = .ok (b, x') ∧ Coherent maxSize banned recorded x' ∧
      (b = true ↔ peerAddr ∈ banned ∨ ∃ p, x.byIp.get peerAddr.ip = some p ∧ 2 ≤ p.score ∧
        now < p.excludeUntil) := by
  by_cases hban : peerAddr ∈ x.permaBans
  · exact ⟨true, x, if_pos hban, h, by simp [h.banned.mp hban]⟩
  have hnot := mt h.banned.mpr hban
  cases hget : x.byIp.get peerAddr.ip with
  | none => exact ⟨false, x, by simp [PeerExclusion.isExcluded, hban, hget], h, by simp [hnot]⟩
  | some p =>
    refine ⟨p.isExcluded now, ?_⟩
    have hiff : p.isExcluded now = true ↔ peerAddr ∈ banned ∨
        ∃ p', some p = some p' ∧ 2 ≤ p'.score ∧ now < p'.excludeUntil := by
      simp only [hnot, false_or, Option.some.injEq, exists_eq_left', Peer.isExcluded,
        decide_eq_true_eq]
      rfl
    by_cases hexp : p.hasExpired now = true
    · obtain ⟨d, hrem, hidx⟩ := remove_ok h.indexes (keyOf_of_get hget)
      rw [← keyOf_del] at hidx
      refine ⟨_, ?_, h.del hget hidx, hiff⟩
      simp [PeerExclusion.isExcluded, hban, hget, hexp, PeerExclusion.remove, h.address hget, hrem]
    · exact ⟨x, by simp [PeerExclusion.isExcluded, hban, hget, hexp], h, hiff⟩

end Coherent

end PeerExclusion

/-- The excluded peers, the endpoints that were banned, and how often each stored peer has
misbehaved. -/
structure ExclusionHistory where
  peers : PeerExclusion
  banned : List SocketAddrV6
  recorded : Ipv6Addr → ℕ

namespace ExclusionHistory

open PeerExclusion

inductive Operation
  | peerMisbehaved (endpoint : SocketAddrV6) (now : Timestamp)
  | permaBan (peerAddr : SocketAddrV6)
  | isExcluded (peerAddr : SocketAddrV6) (now : Timestamp)

def start (maxSize : ℕ) : ExclusionHistory := ⟨withMaxSize maxSize, [], fun _ => 0⟩

def apply (h : ExclusionHistory) : Operation → Except NetworkPanic ExclusionHistory
  | .peerMisbehaved endpoint now => do
    let peers ← h.peers.peerMisbehaved endpoint now
    return { h with
      peers
      recorded := update h.recorded endpoint.ip
        ((if (h.peers.byIp.get endpoint.ip).isSome then h.recorded endpoint.ip else 0) + 1) }
  | .permaBan peerAddr =>
    .ok { h with peers := h.peers.permaBan peerAddr, banned := peerAddr :: h.banned }
  | .isExcluded peerAddr now => do
    let (_, peers) ← h.peers.isExcluded peerAddr now
    return { h with peers }

variable {maxSize : ℕ} {h : ExclusionHistory}

theorem apply_ok (hc : Coherent maxSize h.banned h.recorded h.peers) (op : Operation) :
    ∃ h', h.apply op = .ok h' ∧ Coherent maxSize h'.banned h'.recorded h'.peers := by
  cases op with
  | peerMisbehaved endpoint now =>
    obtain ⟨x, hx, hc', -⟩ := hc.peerMisbehaved endpoint now
    refine ⟨⟨x, h.banned, _⟩, ?_, hc'⟩
    rw [apply, hx]
    rfl
  | permaBan peerAddr =>
    exact ⟨_, rfl, { hc with banned := by simp [permaBan, hc.banned] }⟩
  | isExcluded peerAddr now =>
    obtain ⟨b, x, hx, hc', -⟩ := hc.isExcluded peerAddr now
    refine ⟨⟨x, h.banned, h.recorded⟩, ?_, hc'⟩
    simp [apply, hx]

/-- In every run no operation panics, the stored peers are found under their addresses and once
under their dates, there are not too many, an eviction takes a peer with the earliest date, and a
peer is excluded exactly if it is banned or has misbehaved twice and its date is in the future. -/
theorem peers_exact (hrun : Run apply (fun _ _ => True) (start maxSize) h) :
    (∀ op, ∃ h', h.apply op = .ok h') ∧
    Coherent maxSize h.banned h.recorded h.peers ∧
    (∀ endpoint now x, h.peers.peerMisbehaved endpoint now = .ok x →
      ∀ ip p, h.peers.byIp.get ip = some p → x.byIp.get ip = none →
        ∀ ip' p', h.peers.byIp.get ip' = some p' → p.excludeUntil ≤ p'.excludeUntil) ∧
    ∀ peerAddr now, ∃ b x, h.peers.isExcluded peerAddr now = .ok (b, x) ∧ (b = true ↔
      peerAddr ∈ h.banned ∨ ∃ p, h.peers.byIp.get peerAddr.ip = some p ∧ 2 ≤ p.score ∧
        now < p.excludeUntil) := by
  have hc : Coherent maxSize h.banned h.recorded h.peers :=
    hrun.invariant_of_ok (P := fun h => Coherent maxSize h.banned h.recorded h.peers)
      ⟨nofun, .empty, nofun, Nat.zero_le _, rfl, by simp [start, withMaxSize]⟩
      fun hc _ => apply_ok hc _
  refine ⟨fun op => (apply_ok hc op).imp fun _ => And.left, hc, fun endpoint now x hx => ?_,
    fun peerAddr now => ?_⟩
  · obtain ⟨x', hx', -, hearliest⟩ := hc.peerMisbehaved endpoint now
    cases hx.symm.trans hx'
    exact hearliest
  · obtain ⟨b, x, hx, -, hiff⟩ := hc.isExcluded peerAddr now
    exact ⟨b, x, hx, hiff⟩

/-- A peer that misbehaves twice is excluded. -/
theorem peers_exact_twice : ∃ h x, Run apply (fun _ _ => True) (start 5000) h ∧
    h.peers.isExcluded ⟨1, 7075, 0, 0⟩ 2 = .ok (true, x) := by
  obtain ⟨h, hops, htest⟩ : ∃ h, [.peerMisbehaved ⟨1, 7075, 0, 0⟩ 0,
      .peerMisbehaved ⟨1, 7075, 0, 0⟩ 1].foldlM apply (start 5000) = .ok h ∧
      decide (∃ p ∈ h.peers.byIp.get 1, 2 ≤ p.score ∧ 2 < p.excludeUntil) = true :=
    exists_eq_ok (by decide +kernel)
  obtain ⟨p, hget, hexcluded⟩ := of_decide_eq_true htest
  have hrun := Run.of_foldlM hops fun _ _ _ => trivial
  obtain ⟨-, -, -, hiff⟩ := peers_exact hrun
  obtain ⟨b, x, hx, hb⟩ := hiff ⟨1, 7075, 0, 0⟩ 2
  cases hb.mpr (.inr ⟨p, hget, hexcluded⟩)
  exact ⟨h, x, hrun, hx⟩

end ExclusionHistory

end RsNano
