import RsNano.Network.Network

/-!
# Connection limits

Every call except `add` leaves the counts of alive channels as they are or lowers them, and `add`
adds one channel, which it has checked against the limits. So the limit of a direction and the
limit of the `/32` of an IPv6 address hold in every run. The limit of an address group is checked
with the address of the peer in place of its group, so it holds for the groups whose peers are
added with the address of the group: the IPv4 addresses, and an IPv6 `/48` of which only the first
address connects. Counted are the channels that the network holds.
-/

namespace RsNano.Network

open Ipv6Addr Machine

/-- The number of alive channels whose endpoint and direction pass a test. -/
def countAlive (n : Network) (q : SocketAddrV6 → ChannelDirection → Bool) : ℕ :=
  n.channels.count fun c => c.isAlive && q c.peerAddr c.direction

/-- The number of alive channels of peers outside IPv4 in a `/32`. -/
def countNonIpv4BySubnet (n : Network) (subnet : Ipv6Addr) : ℕ :=
  n.channels.count fun c => c.isAlive ∧ ¬ c.peerAddr.ip.isIpv4Mapped ∧ c.subnetwork = subnet

theorem countByIp_eq (n : Network) (ip : Ipv6Addr) :
    n.countByIp ip = n.countAlive fun a _ => a.ip.ipv4AddressOrIpv6Subnet = ip := by
  simp only [countByIp, countAlive, Bool.decide_and, Bool.decide_eq_true]
  rfl

theorem countByDirection_eq (n : Network) (direction : ChannelDirection) :
    n.countByDirection direction = n.countAlive fun _ d => d = direction := by
  simp only [countByDirection, countAlive, Bool.decide_and, Bool.decide_eq_true]

theorem countNonIpv4BySubnet_eq (n : Network) (subnet : Ipv6Addr) :
    n.countNonIpv4BySubnet subnet =
      n.countAlive fun a _ => ¬ a.ip.isIpv4Mapped ∧ a.ip.mapAddressToSubnetwork = subnet := by
  simp only [countNonIpv4BySubnet, countAlive, Bool.decide_and, Bool.decide_eq_true]
  rfl

theorem countNonIpv4BySubnet_le (n : Network) (subnet : Ipv6Addr) :
    n.countNonIpv4BySubnet subnet ≤ n.countBySubnet subnet := by
  apply Table.count_le_count
  intro c hc
  have hc := of_decide_eq_true hc
  exact decide_eq_true ⟨hc.1, hc.2.2⟩

/-! ### What a call does to the channels -/

/-- The configuration, up to the port a node listens on. -/
def SameLimits (config config' : NetworkConfig) : Prop :=
  config' = { config with listeningPort := config'.listeningPort }

/-- A call that adds no channel. -/
structure AddsNone (n n' : Network) : Prop where
  config : SameLimits n.config n'.config
  count : ∀ q, n'.countAlive q ≤ n.countAlive q

/-- A call that adds one channel. -/
structure AddsOne (n n' : Network) (peer : SocketAddrV6) (direction : ChannelDirection) : Prop where
  config : SameLimits n.config n'.config
  count : ∀ q, n'.countAlive q ≤ n.countAlive q + if q peer direction then 1 else 0

/-- What is checked before a channel is added. -/
structure HasRoom (n : Network) (peer : SocketAddrV6) (direction : ChannelDirection) : Prop where
  direction : n.countByDirection direction < n.maxConnections direction
  ip : n.countByIp peer.ip < n.config.maxPeersPerIp
  subnet : ¬ peer.ip.isIpv4Mapped →
    n.countBySubnet peer.ip.mapAddressToSubnetwork < n.config.maxPeersPerSubnetwork

variable {n n' : Network} {f : Channel → Channel} {now : Timestamp}

theorem AddsNone.of_eq (hchannels : n'.channels = n.channels) (hcfg : n'.config = n.config) :
    AddsNone n n' := by
  refine ⟨?_, fun q => ?_⟩
  · rw [SameLimits, hcfg]
  · rw [countAlive, hchannels, countAlive]

theorem AddsNone.refl (n : Network) : AddsNone n n := .of_eq rfl rfl

theorem AddsNone.trans {n'' : Network} (h : AddsNone n n') (h' : AddsNone n' n'') :
    AddsNone n n'' := by
  refine ⟨?_, fun q => (h'.count q).trans (h.count q)⟩
  have hfst := h.config
  have hsnd := h'.config
  rw [SameLimits]
  rw [hsnd, hfst]

/-- A change of a channel that keeps its endpoint and direction and does not reopen it. -/
structure KeepsPeer (f : Channel → Channel) : Prop where
  peerAddr : ∀ c, (f c).peerAddr = c.peerAddr
  direction : ∀ c, (f c).direction = c.direction
  isAlive : ∀ c, (f c).isAlive = true → c.isAlive = true

theorem KeepsPeer.passes (h : KeepsPeer f) (c : Channel)
    (q : SocketAddrV6 → ChannelDirection → Bool)
    (hpass : ((f c).isAlive && q (f c).peerAddr (f c).direction) = true) :
    (c.isAlive && q c.peerAddr c.direction) = true := by
  rw [Bool.and_eq_true, h.peerAddr, h.direction] at hpass
  exact Bool.and_eq_true_iff.mpr ⟨h.isAlive c hpass.1, hpass.2⟩

theorem keepsPeer_close : KeepsPeer Channel.close :=
  ⟨fun _ => rfl, fun _ => rfl, fun _ h => nomatch h⟩

/-- Closing some channels keeps the peers of all. -/
theorem KeepsPeer.ite (p : Channel → Prop) [DecidablePred p] :
    KeepsPeer fun c => if p c then c.close else c := by
  refine ⟨fun c => ?_, fun c => ?_, fun c => ?_⟩
  · split <;> rfl
  · split <;> rfl
  · split
    · exact keepsPeer_close.isAlive c
    · exact id

theorem modifyChannel_addsNone (n : Network) (channelId : ChannelId) (h : KeepsPeer f) :
    AddsNone n (n.modifyChannel channelId f) := by
  rw [modifyChannel]
  split
  · next c hc => exact ⟨rfl, fun q => Table.count_put_le _ hc (h.passes c q)⟩
  · exact .refl n

theorem mapValues_addsNone (n : Network) (h : KeepsPeer f) :
    AddsNone n { n with channels := n.channels.mapValues fun _ => f } := by
  refine ⟨rfl, fun q => ?_⟩
  simp only [countAlive]
  apply Table.count_mapValues_le
  intro _ c
  exact h.passes c q

theorem removeDeadChannels_addsNone (n : Network) : AddsNone n n.removeDeadChannels := by
  refine ⟨rfl, fun q => ?_⟩
  simp only [countAlive, removeDeadChannels]
  apply Table.count_retain_le

theorem purge_addsNone {cutoffPeriod : ℕ} {order : List SocketAddrV6}
    (h : n.purge now cutoffPeriod order = .ok n') : AddsNone n n' := by
  simp only [purge, bind_eq_ok, pure_eq_ok] at h
  obtain ⟨-, -, rfl⟩ := h
  have hidle := n.mapValues_addsNone (KeepsPeer.ite fun c => cutoffPeriod ≤ now.sub c.lastActivity)
  have hold := (n.closeIdleChannels now cutoffPeriod).mapValues_addsNone
    (KeepsPeer.ite fun c => c.protocolVersion < n.config.protocolInfo.versionMin)
  exact ((hidle.trans hold).trans (removeDeadChannels_addsNone _)).trans (.of_eq rfl rfl)

theorem peerMisbehaved_addsNone {channelId : ChannelId}
    (h : n.peerMisbehaved channelId now = .ok n') : AddsNone n n' := by
  rw [peerMisbehaved] at h
  split at h
  · cases h
    exact .refl n
  · simp only [bind_eq_ok, pure_eq_ok] at h
    obtain ⟨-, -, rfl⟩ := h
    refine .trans (.of_eq ?_ ?_) (modifyChannel_addsNone _ _ keepsPeer_close)
    · rfl
    · rfl

theorem removeAttempt_addsNone {remote : SocketAddrV6} (h : n.removeAttempt remote = .ok n') :
    AddsNone n n' := by
  simp only [removeAttempt, bind_eq_ok, pure_eq_ok] at h
  obtain ⟨-, -, rfl⟩ := h
  exact .of_eq rfl rfl

/-- The check of a new connection changes the list of excluded peers only, and passes where there
is room. -/
theorem validateNewConnection_eq_ok {peer : SocketAddrV6} {direction : ChannelDirection}
    {error : Option NetworkError}
    (h : n.validateNewConnection peer direction now = .ok (error, n')) :
    (∃ excludedPeers, n' = { n with excludedPeers := excludedPeers }) ∧
      (error = none → HasRoom n' peer direction) := by
  rw [validateNewConnection] at h
  split at h
  · cases h
    exact ⟨⟨n.excludedPeers, rfl⟩, nofun⟩
  · next hdirection =>
    simp only [bind_eq_ok, pure_eq_ok, Prod.mk.injEq] at h
    obtain ⟨⟨excluded, excludedPeers⟩, -, herr, rfl⟩ := h
    refine ⟨⟨excludedPeers, rfl⟩, fun hnone => ?_⟩
    rw [hnone] at herr
    split at herr
    · cases herr
    split at herr
    · cases herr
    next hip =>
    split at herr
    · cases herr
    split at herr
    · cases herr
    next hsubnet =>
    refine ⟨Nat.lt_of_not_le hdirection, Nat.lt_of_not_le hip, fun hmapped => ?_⟩
    rw [maxSubnetworkConnections, if_neg hmapped, decide_eq_true_eq, Nat.not_le] at hsubnet
    exact Nat.lt_of_le_of_lt (Nat.le_add_right _ _) hsubnet

theorem addOutboundAttempt_addsNone {peer : SocketAddrV6} {error : Option NetworkError}
    (h : n.addOutboundAttempt peer now = .ok (error, n')) : AddsNone n n' := by
  simp only [addOutboundAttempt, bind_eq_ok] at h
  obtain ⟨⟨refused, n1⟩, hval, h⟩ := h
  obtain ⟨⟨excludedPeers, rfl⟩, -⟩ := validateNewConnection_eq_ok hval
  cases refused with
  | none =>
    cases h
    exact .of_eq rfl rfl
  | some e =>
    simp only [bind_eq_ok, pure_eq_ok, Prod.mk.injEq] at h
    obtain ⟨n2, hrem, -, rfl⟩ := h
    refine .trans (.of_eq ?_ ?_) (removeAttempt_addsNone hrem)
    · rfl
    · rfl

/-- A call adds no channel, or one channel for which there is room. -/
theorem apply_cases {op : Operation} (h : n.apply op = .ok n') :
    AddsNone n n' ∨ ∃ peer direction now, op = .add peer direction now ∧
      HasRoom n peer direction ∧ AddsOne n n' peer direction := by
  cases op with
  | add peer direction now =>
    obtain ⟨⟨error, n1⟩, hadd, rfl⟩ := map_eq_ok.mp h
    simp only [add, bind_eq_ok] at hadd
    obtain ⟨⟨refused, n2⟩, hval, hadd⟩ := hadd
    obtain ⟨⟨excludedPeers, rfl⟩, hroom⟩ := validateNewConnection_eq_ok hval
    cases refused with
    | some e =>
      cases hadd
      exact .inl (.of_eq rfl rfl)
    | none =>
      cases hadd
      exact .inr ⟨peer, direction, now, rfl, ⟨(hroom rfl).direction, (hroom rfl).ip,
        (hroom rfl).subnet⟩, ⟨rfl, fun q => Table.count_put_le_add _ _ _ _⟩⟩
  | addOutboundAttempt peer now =>
    obtain ⟨⟨error, n1⟩, hadd, rfl⟩ := map_eq_ok.mp h
    exact .inl (addOutboundAttempt_addsNone hadd)
  | removeAttempt remote => exact .inl (removeAttempt_addsNone h)
  | remove channelId =>
    cases h
    exact .inl ⟨rfl, fun _ => Table.count_del_le _ _ _⟩
  | purge now cutoffPeriod order => exact .inl (purge_addsNone h)
  | close channelId =>
    cases h
    exact .inl (modifyChannel_addsNone n channelId keepsPeer_close)
  | peerMisbehaved channelId now => exact .inl (peerMisbehaved_addsNone h)
  | setPeeringAddr channelId peeringAddr | setProtocolVersion channelId version
  | setLastActivity channelId now =>
    cases h
    exact .inl (modifyChannel_addsNone n channelId ⟨fun _ => rfl, fun _ => rfl, fun _ => id⟩)
  | permaBan peerAddr =>
    cases h
    exact .inl (.of_eq rfl rfl)
  | isExcluded peerAddr now =>
    obtain ⟨⟨excluded, n1⟩, hask, rfl⟩ := map_eq_ok.mp h
    simp only [isExcluded, bind_eq_ok, pure_eq_ok, Prod.mk.injEq] at hask
    obtain ⟨r, -, -, rfl⟩ := hask
    exact .inl (.of_eq rfl rfl)
  | setListeningPort port =>
    cases h
    exact .inl ⟨rfl, fun _ => Nat.le_refl _⟩
  | stop =>
    cases h
    rw [stop]
    split
    · exact .inl (.refl n)
    · exact .inl ⟨rfl, fun _ => Nat.zero_le _⟩

/-! ### Runs -/

/-- Peers of a group are added with the address of the group. -/
def Operation.AddsGroupAddress (group : Ipv6Addr) : Operation → Prop
  | .add peer _ _ => peer.ip.ipv4AddressOrIpv6Subnet = group → peer.ip = group
  | _ => True

/-- A network with the limits of a configuration that keeps a count within a bound. -/
structure Within (config : NetworkConfig) (q : SocketAddrV6 → ChannelDirection → Bool)
    (limit : ℕ) (n : Network) : Prop where
  config : SameLimits config n.config
  count : n.countAlive q ≤ limit

/-- A count stays within a bound if each added channel that raises it finds it below the bound. -/
theorem run_within {config : NetworkConfig} {q : SocketAddrV6 → ChannelDirection → Bool} {limit : ℕ}
    {allowed : Operation → Prop} (h : Run apply (fun _ op => allowed op) (new config) n)
    (hroom : ∀ {n : Network} {peer direction now}, SameLimits config n.config → allowed (.add peer
    direction now) → HasRoom n peer direction → q peer direction = true → n.countAlive q < limit) :
    Within config q limit n := by
  refine h.invariant ⟨rfl, Nat.zero_le _⟩ ?_
  intro n op n' hn hok hop
  obtain hnone | ⟨peer, direction, now, rfl, hhas, hone⟩ := apply_cases hop
  · refine ⟨?_, (hnone.count q).trans hn.count⟩
    have hcfg := hnone.config
    rw [hn.config] at hcfg
    exact hcfg
  · constructor
    · have hcfg := hone.config
      rw [hn.config] at hcfg
      exact hcfg
    · have hcnt := hone.count q
      have hold := hn.count
      split at hcnt
      · next hq =>
        have hbelow := hroom hn.config hok hhas hq
        omega
      · omega

/-- The limits of both directions and of the `/32` of IPv6 peers hold in every run, and the limit
of an address group in every run that adds its peers with the address of the group. -/
theorem run_limits (config : NetworkConfig) :
    (∀ n, Run apply (fun _ _ => True) (new config) n →
      (∀ direction, n.countByDirection direction ≤ (new config).maxConnections direction) ∧
        ∀ subnet, n.countNonIpv4BySubnet subnet ≤ config.maxPeersPerSubnetwork) ∧
    ∀ n group, Run apply (fun _ op => op.AddsGroupAddress group) (new config) n →
      n.countByIp group ≤ config.maxPeersPerIp := by
  refine ⟨fun n h => ⟨fun direction => ?_, fun subnet => ?_⟩, fun n group h => ?_⟩
  · rw [countByDirection_eq]
    refine (run_within h ?_).count
    intro n peer d now hconfig _ hroom hq
    obtain rfl := of_decide_eq_true hq
    have hlimit : n.maxConnections d = (new config).maxConnections d := by
      cases d with
      | inbound | outbound => rw [maxConnections, hconfig]; rfl
    rw [← countByDirection_eq, ← hlimit]
    exact hroom.direction
  · rw [countNonIpv4BySubnet_eq]
    refine (run_within h ?_).count
    intro n peer d now hconfig _ hroom hq
    obtain ⟨hmapped, rfl⟩ := of_decide_eq_true hq
    have hbelow := hroom.subnet hmapped
    rw [hconfig] at hbelow
    rw [← countNonIpv4BySubnet_eq]
    exact Nat.lt_of_le_of_lt (n.countNonIpv4BySubnet_le _) hbelow
  · rw [countByIp_eq]
    refine (run_within h ?_).count
    intro n peer d now hconfig hallowed hroom hq
    have hip : peer.ip = group := hallowed (of_decide_eq_true hq)
    have hbelow := hroom.ip
    rw [hconfig, hip] at hbelow
    rw [← countByIp_eq]
    exact hbelow

/-- Incoming connections from addresses, all at one time. -/
def incoming (ips : List Ipv6Addr) : List Operation :=
  ips.map fun ip => .add ⟨ip, 7075, 0, 0⟩ .inbound 0

/-- On the live network five incoming connections from one IPv4 address are four channels. -/
theorem run_limits_live :
    ∃ n, Run apply (fun _ op => op.AddsGroupAddress (ofIpv4 8 8 8 8))
        (new (.defaultFor .nanoLiveNetwork)) n ∧
      n.countByIp (ofIpv4 8 8 8 8) = 4 ∧
      n.countByIp (ofIpv4 8 8 8 8) ≤
        (NetworkConfig.defaultFor .nanoLiveNetwork).maxPeersPerIp ∧
      n.countByDirection .inbound ≤ 2048 ∧ n.countNonIpv4BySubnet 0 ≤ 16 := by
  obtain ⟨n, hn, hcount⟩ := exists_eq_ok
    (x := (incoming (List.replicate 5 (ofIpv4 8 8 8 8))).foldlM apply
      (new (.defaultFor .nanoLiveNetwork)))
    (p := fun n => n.countByIp (ofIpv4 8 8 8 8) = 4) (by decide +kernel)
  have hrun : Run apply (fun _ op => op.AddsGroupAddress (ofIpv4 8 8 8 8))
      (new (.defaultFor .nanoLiveNetwork)) n := by
    refine .of_foldlM hn fun op hop _ => ?_
    obtain ⟨ip, hip, rfl⟩ := List.mem_map.mp hop
    exact fun _ => List.eq_of_mem_replicate hip
  have hall := (run_limits _).1 n (hrun.mono fun _ _ _ => trivial)
  exact ⟨n, hrun, of_decide_eq_true hcount, (run_limits _).2 n _ hrun, hall.1 .inbound, hall.2 0⟩

/-- On the live network five addresses of one IPv6 `/48` are five channels. -/
theorem exists_group_above_limit :
    ∃ n, Run apply (fun _ _ => True) (new (.defaultFor .nanoLiveNetwork)) n ∧
      (NetworkConfig.defaultFor .nanoLiveNetwork).maxPeersPerIp <
        n.countByIp 0x2a000000000000000000000000000000 := by
  obtain ⟨n, hn, hcount⟩ := exists_eq_ok
    (x := (incoming ((List.range 5).map fun i =>
      0x2a000000000000000000000000000001 + BitVec.ofNat 128 i)).foldlM apply
      (new (.defaultFor .nanoLiveNetwork)))
    (p := fun n => n.countByIp 0x2a000000000000000000000000000000 = 5) (by decide +kernel)
  refine ⟨n, .of_foldlM hn fun _ _ _ => trivial, ?_⟩
  rw [of_decide_eq_true hcount]
  decide

end RsNano.Network
