import RsNano.Lib.Range
import RsNano.Bootstrap.BootstrapServer
import RsNano.Bootstrap.RunningQuery
import RsNano.Ledger.AccountChains

/-!
# Server and requester agree

The server walks up a chain along the successor table, the requester checks the previous links of
what it gets. Where the tables describe account chains, both follow the same chain: an answer is
never taken for invalid, and what is taken for new is the part of the chain, or the accounts, that
were asked for. The check of the accounts takes account zero for one that is out of order. Nobody
can open this account, so no ledger that a node reaches has it.
-/

namespace RsNano

open BootstrapResponderImpl RunningQuery List BootstrapServer

/-- What is on a walk down the previous links is stored. -/
theorem get_of_mem_followPrevious {t : Table BlockHash SavedBlock} {n : ℕ} {h : BlockHash}
    {chain : List SavedBlock} (hchain : followPrevious t n h = some chain) {sb : SavedBlock}
    (hmem : sb ∈ chain) : ∃ k, t.get k = some sb := by
  induction n generalizing h chain with
  | zero =>
    cases hchain
    cases hmem
  | succ n ih =>
    cases hget : t.get h with
    | none =>
      rw [followPrevious, hget] at hchain
      cases hchain
    | some first =>
      cases hrest : followPrevious t n first.previous with
      | none =>
        rw [followPrevious, hget] at hchain
        simp [hrest] at hchain
      | some rest =>
        rw [followPrevious, hget] at hchain
        simp only [Option.bind_eq_bind, Option.bind_some, hrest, Option.pure_def,
          Option.some.injEq] at hchain
        subst hchain
        cases mem_cons.mp hmem with
        | inl heq => exact ⟨h, heq ▸ hget⟩
        | inr htail => exact ih hrest htail

theorem BootstrapResponderImpl.blocksAck_eq (id : BitVec 64) {blocks : List Block}
    (h : blocks.length ≤ BlocksAckPayload.maxBlocks) :
    blocksAck id blocks = .ok ⟨id, .blocks ⟨blocks, h⟩⟩ := by
  have hnew : BlocksAckPayload.new blocks = .ok ⟨blocks, h⟩ := dif_pos h
  rw [blocksAck, hnew]

variable {request : BlocksReqPayload}

theorem BootstrapServer.verify_blocks {id : BitVec 64} (h : verify ⟨id, .blocks request⟩ = true) :
    0 < request.count.toNat ∧ request.count.toNat ≤ BlocksAckPayload.maxBlocks :=
  have ⟨hpos, hle⟩ := of_decide_eq_true h
  ⟨BitVec.lt_def.mp hpos, BitVec.le_def.mp hle⟩

namespace RunningQuery

variable {q : RunningQuery} {response : BlocksAckPayload} {first : Block} {rest : List Block}

theorem queryType_blocks {id : BitVec 64} {account : Account} {hash : BlockHash} {now : Timestamp}
    {timeout : ℕ} :
    (fromSpec id ⟨.blocks request, account, hash⟩ now timeout).queryType = .blocksByHash ∨
      (fromSpec id ⟨.blocks request, account, hash⟩ now timeout).queryType = .blocksByAccount := by
  obtain ⟨startType, -, -⟩ := request
  cases startType with
  | account => exact .inr rfl
  | block => exact .inl rfl

/-- No blocks are nothing new. -/
theorem verifyBlocks_nil (hq : q.queryType = .blocksByHash ∨ q.queryType = .blocksByAccount)
    (hbs : response.blocks = []) : q.verifyBlocks response = .nothingNew := by
  have hle : ¬ q.count < response.blocks.length := by
    rw [hbs]
    exact Nat.not_lt_zero _
  rw [verifyBlocks, if_neg fun h => hq.elim h.2 h.1, if_neg hle, hbs]

section

variable (hbs : response.blocks = first :: rest) (hle : response.blocks.length ≤ q.count)
  (hchain : isChain first.hash rest = true)

include hbs hle hchain

/-- A chain from a block of the account on answers a query by account. -/
theorem verifyBlocks_byAccount (hq : q.queryType = .blocksByAccount)
    (hfst : first.accountField.getD 0 = q.start.into .account) :
    q.verifyBlocks response = .ok := by
  rw [verifyBlocks, if_neg fun h => h.1 hq, if_neg (Nat.not_lt.mpr hle), hbs]
  simp only [hq, hfst, hchain, if_true, ne_eq, not_true_eq_false, if_false]

/-- A chain from the given block on answers a query by hash, if there is more than this block. -/
theorem verifyBlocks_byHash (hq : q.queryType = .blocksByHash)
    (hfst : first.hash = q.start.into .blockHash) :
    q.verifyBlocks response = if rest = [] then .nothingNew else .ok := by
  have hne : ¬ q.queryType = .blocksByAccount := by
    rw [hq]
    exact nofun
  rw [verifyBlocks, if_neg fun h => h.2 hq, if_neg (Nat.not_lt.mpr hle), hbs]
  simp only [hne, if_false, hfst, ne_eq, not_true_eq_false]
  rw [← hfst, hchain, if_pos rfl]

end

/-- Ascending accounts above the given one pass the check. -/
theorem areAccountsInAscendingOrder_of_pairwise {previous : Account} {frontiers : List Frontier}
    (habove : ∀ f ∈ frontiers, previous.number < f.account.number)
    (hascending : frontiers.Pairwise fun f g => f.account.number < g.account.number) :
    areAccountsInAscendingOrder previous frontiers = true := by
  induction frontiers generalizing previous with
  | nil => rfl
  | cons f frontiers ih =>
    obtain ⟨hfst, hrest⟩ := pairwise_cons.mp hascending
    rw [areAccountsInAscendingOrder, if_neg (BitVec.not_le.mpr (habove f mem_cons_self))]
    exact ih hfst hrest

end RunningQuery

namespace Ledger

variable {l : Ledger} {a : Account} {info : AccountInfo} {chain : List SavedBlock}

/-! ### Chains from the open block upwards -/

variable {i : ℕ} {sb : SavedBlock}

section

variable (hl : l.Chained) (hinfo : l.account.get a = some info)
    (hchain : l.AccountChain a info chain)

include hchain

namespace AccountChain

theorem open_eq : ∃ sb, chain.reverse[0]? = some sb ∧ sb.hash = info.openBlock := by
  obtain ⟨first, hlast, hhash, -⟩ := hchain.opened
  refine ⟨first, ?_, hhash⟩
  rw [← head?_eq_getElem?, head?_reverse, hlast]

theorem length_segment {blocks : List Block} {count : ℕ}
    (hbs : blocks = ((chain.reverse.drop i).take count).map (·.block)) :
    blocks.length = min count (info.blockCount - i) := by
  rw [hbs, length_map, length_take, length_drop, length_reverse, hchain.length_eq]

include hl

/-- A block of a chain, counted from the open block. -/
theorem get (hi : chain.reverse[i]? = some sb) : l.block.get sb.hash = some sb := by
  have hmem : sb ∈ chain := mem_reverse.mp (mem_of_getElem? hi)
  obtain ⟨k, hk⟩ := get_of_mem_followPrevious hchain.follow hmem
  rw [hl.linked.hash_eq hk]
  exact hk

/-- Each block of a chain names the one below it. -/
theorem previous {next : SavedBlock} (hi : chain.reverse[i]? = some sb)
    (hnext : chain.reverse[i + 1]? = some next) : next.previous = sb.hash := by
  have hsb := hchain.get hl hi
  have hget := hchain.get hl hnext
  obtain ⟨hht, hacc⟩ := hchain.height_eq i sb hi
  obtain ⟨hnextHeight, hnextAccount⟩ := hchain.height_eq (i + 1) next hnext
  have hprev : next.previous ≠ 0 := by
    intro hzero
    have hone := (hl.linked.first hget hzero).1
    omega
  obtain ⟨p, hp, hpacc, hpht⟩ := hl.linked.previous hget hprev
  exact hl.linked.unique hp hsb (hpacc.trans (hnextAccount.trans hacc.symm)) (by omega)

/-- The open block of an account names it. -/
theorem accountField (hi : chain.reverse[0]? = some sb) :
    sb.block.accountField.getD 0 = a := by
  have hsb := hchain.get hl hi
  obtain ⟨hht, hacc⟩ := hchain.height_eq 0 sb hi
  have hopen := (hl.linked.first hsb (hl.linked.previous_eq_zero hsb hht)).2
  rw [← hacc, SavedBlock.account]
  cases hblk : sb.block with
  | legacyOpen b | state b => rfl
  | _ => rw [hblk] at hopen; cases hopen

/-- The blocks above a block of a chain pass the check of the previous links. -/
theorem isChain_drop (hi : chain.reverse[i]? = some sb) (n : ℕ) :
    isChain sb.hash (((chain.reverse.drop (i + 1)).take n).map (·.block)) = true := by
  induction n generalizing i sb with
  | zero => rfl
  | succ n ih =>
    cases hnext : chain.reverse[i + 1]? with
    | none => rw [List.drop_eq_nil_of_le (List.getElem?_eq_none_iff.mp hnext)]; rfl
    | some next =>
      obtain ⟨hlt, hget⟩ := List.getElem?_eq_some_iff.mp hnext
      have hprev : next.block.previous = sb.hash := hchain.previous hl hi hnext
      rw [List.drop_eq_getElem_cons hlt, hget, List.take_succ_cons, List.map_cons,
        isChain, if_neg (not_not_intro hprev)]
      exact ih hnext

include hinfo

/-- The successor of a block of a chain is the next one, and the head has none. -/
theorem successor (hi : chain.reverse[i]? = some sb) :
    l.getBlock ((l.blockSuccessor sb.hash).getD 0) = chain.reverse[i + 1]? := by
  have hsb := hchain.get hl hi
  have hne : sb.hash ≠ 0 := hl.linked.hash_ne_zero hsb
  have hsucc : l.blockSuccessor sb.hash = l.successors.get sb.hash := if_pos hne
  rw [hsucc]
  cases hnext : chain.reverse[i + 1]? with
  | some next =>
    have hget := hchain.get hl hnext
    have hst : l.successors.get sb.hash = some next.hash :=
      hl.successor.mpr ⟨hne, next, hget, hchain.previous hl hi hnext⟩
    rw [hst, Option.getD_some, getBlock, if_neg (hl.linked.hash_ne_zero hget), hget]
  | none =>
    cases hst : l.successors.get sb.hash with
    | none => exact if_pos rfl
    | some s =>
      obtain ⟨-, next, hget, hprev⟩ := hl.successor.mp hst
      obtain ⟨p, hp, hpacc, hht⟩ := hl.linked.previous hget (hprev ▸ hne)
      rw [hprev, hsb] at hp
      cases hp
      obtain ⟨info', hinfo', hle⟩ := hl.owner hget
      obtain ⟨hi', hacc⟩ := hchain.height_eq i sb hi
      rw [← hpacc, hacc, hinfo] at hinfo'
      cases hinfo'
      have hlen := getElem?_eq_none_iff.mp hnext
      rw [length_reverse, hchain.length_eq] at hlen
      omega

theorem length_le_size : chain.length ≤ l.block.size := by
  have hle := Table.le_sumBy (fun _ info => info.blockCount) hinfo
  rw [hl.total] at hle
  rw [hchain.length_eq]
  exact hle

/-- The walk of the server passes the chain from the given block on. -/
theorem prepareBlocksLoop_eq {count fuel : ℕ} {result : List Block}
    (hcnt : result.length < count) (hfuel : chain.length - i ≤ fuel) :
    prepareBlocksLoop l count fuel result chain.reverse[i]? =
      .ok (result ++ ((chain.reverse.drop i).take (count - result.length)).map (·.block)) := by
  induction fuel generalizing i result with
  | zero =>
    have hi : chain.reverse.length ≤ i := by
      rw [List.length_reverse]
      omega
    rw [List.getElem?_eq_none hi, List.drop_eq_nil_of_le hi, List.take_nil, List.map_nil,
      List.append_nil]
    rfl
  | succ fuel ih =>
    cases hi : chain.reverse[i]? with
    | none =>
      rw [List.drop_eq_nil_of_le (List.getElem?_eq_none_iff.mp hi), List.take_nil, List.map_nil,
        List.append_nil]
      rfl
    | some sb =>
      obtain ⟨hlt, hsb⟩ := List.getElem?_eq_some_iff.mp hi
      have hdrop : chain.reverse.drop i = sb :: chain.reverse.drop (i + 1) := by
        rw [List.drop_eq_getElem_cons hlt, hsb]
      have hlen : (result ++ [sb.block]).length = result.length + 1 := by
        rw [List.length_append, List.length_singleton]
      have htake : count - result.length = count - (result ++ [sb.block]).length + 1 := by omega
      rw [prepareBlocksLoop, hchain.successor hl hinfo hi, hdrop, htake,
        List.take_succ_cons, List.map_cons, List.append_cons result sb.block (List.map _ _)]
      split
      · next heq => rw [heq, Nat.sub_self, List.take_zero, List.map_nil, List.append_nil]
      · next hne => exact ih (by omega) (by omega)

/-- A request from a block of a chain is answered with the chain from there on. -/
theorem prepareResponse_eq (hi : chain.reverse[i]? = some sb) (id : BitVec 64)
    {count : Byte} (hpos : 0 < count.toNat) (hle : count.toNat ≤ BlocksAckPayload.maxBlocks) :
    ∃ payload, prepareResponse l id sb.hash count = .ok ⟨id, .blocks payload⟩ ∧
      payload.blocks = ((chain.reverse.drop i).take count.toNat).map (·.block) := by
  have hsb := hchain.get hl hi
  have hne : sb.hash ≠ 0 := hl.linked.hash_ne_zero hsb
  have hsize := hchain.length_le_size hl hinfo
  have hloop : prepareBlocksLoop l count.toNat l.block.size []
      chain.reverse[i]? = .ok (((chain.reverse.drop i).take count.toNat).map (·.block)) :=
    hchain.prepareBlocksLoop_eq hl hinfo hpos (by omega)
  have hlen : (((chain.reverse.drop i).take count.toNat).map (·.block)).length ≤
      BlocksAckPayload.maxBlocks := by
    rw [length_map]
    exact (length_take_le _ _).trans hle
  refine ⟨⟨_, hlen⟩, ?_, rfl⟩
  rw [prepareResponse, prepareBlocks, if_pos hne, getBlock, if_neg hne, hsb, ← hi, hloop]
  exact blocksAck_eq id hlen

end AccountChain

end

/-- A stored block is on the chain of its account. -/
theorem Chained.exists_index (hl : l.Chained) {h : BlockHash} (hget : l.block.get h = some sb) :
    ∃ info chain, ∃ i : ℕ, l.account.get sb.account = some info ∧
      l.AccountChain sb.account info chain ∧ chain.reverse[i]? = some sb := by
  obtain ⟨info, hinfo, -⟩ := hl.owner hget
  obtain ⟨chain, hchain, hmem⟩ := hl.accountChain hinfo
  obtain ⟨i, hi⟩ := getElem?_of_mem (mem_reverse.mpr ((hmem h sb hget).mpr rfl))
  exact ⟨info, chain, i, hinfo, hchain, hi⟩

/-! ### Blocks -/

/-- What a node that answers in full sends for a request for blocks: `i` blocks lie below the one
that was asked for. -/
def IsSegment (l : Ledger) (request : BlocksReqPayload) (blocks : List Block) : Prop :=
  ∃ a info chain, ∃ i : ℕ, l.account.get a = some info ∧ l.AccountChain a info chain ∧
    (match request.startType with
      | .account => a = request.start.into .account ∧ i = 0
      | .block => ∃ sb, chain.reverse[i]? = some sb ∧ sb.hash = request.start.into .blockHash) ∧
    blocks = ((chain.reverse.drop i).take request.count.toNat).map (·.block) ∧
    blocks.length = min request.count.toNat (info.blockCount - i)

/-- A request for blocks is answered with the part of the chain that was asked for, or with
nothing. -/
theorem Chained.processBlocks_eq (hl : l.Chained) (id : BitVec 64)
    (hver : verify ⟨id, .blocks request⟩ = true) :
    ∃ payload, processBlocks l id request = .ok ⟨id, .blocks payload⟩ ∧
      (payload.blocks = [] ∨ l.IsSegment request payload.blocks) := by
  obtain ⟨hpos, hle⟩ := verify_blocks hver
  obtain ⟨startType, start, count⟩ := request
  have hemp : ∃ payload, prepareEmptyBlocksResponse id =
      .ok ⟨id, .blocks payload⟩ ∧ (payload.blocks = [] ∨
        l.IsSegment ⟨startType, start, count⟩ payload.blocks) :=
    ⟨_, blocksAck_eq id (Nat.zero_le _), .inl rfl⟩
  have hcnt : (if count ≤ maxBlocks then count
      else maxBlocks) = count := if_pos (BitVec.le_def.mpr hle)
  cases startType with
  | account =>
    simp only [processBlocks, hcnt, getAccount]
    cases hinfo : l.account.get (start.into .account) with
    | none => exact hemp
    | some info =>
      obtain ⟨chain, hchain, -⟩ := hl.accountChain hinfo
      obtain ⟨sb, hi, hopen⟩ := hchain.open_eq
      obtain ⟨payload, hresp, hbs⟩ := hchain.prepareResponse_eq hl hinfo hi id hpos hle
      rw [hopen] at hresp
      exact ⟨payload, hresp, .inr ⟨_, info, chain, 0, hinfo, hchain, ⟨rfl, rfl⟩, hbs,
        hchain.length_segment hbs⟩⟩
  | block =>
    simp only [processBlocks, hcnt]
    by_cases hex : l.blockExists (start.into .blockHash) = true
    · obtain ⟨sb, hsb⟩ := Option.isSome_iff_exists.mp (of_decide_eq_true hex).2
      obtain ⟨info, chain, i, hinfo, hchain, hi⟩ := hl.exists_index hsb
      obtain ⟨payload, hresp, hbs⟩ := hchain.prepareResponse_eq hl hinfo hi id hpos hle
      have hhash := hl.linked.hash_eq hsb
      rw [if_pos hex, ← hhash]
      exact ⟨payload, hresp, .inr ⟨_, info, chain, i, hinfo, hchain, ⟨sb, hi, hhash⟩, hbs,
        hchain.length_segment hbs⟩⟩
    · rw [if_neg hex]
      exact hemp

/-- The requester does not find fault with the part of the chain that it asked for. -/
theorem IsSegment.verifyBlocks_ne_invalid (hl : l.Chained) {payload : BlocksAckPayload}
    (h : l.IsSegment request payload.blocks) (hpos : 0 < request.count.toNat) (id : BitVec 64)
    (account : Account) (hash : BlockHash) (now : Timestamp) (timeout : ℕ) :
    (fromSpec id ⟨.blocks request, account, hash⟩ now timeout).verifyBlocks payload ≠
      .invalid := by
  obtain ⟨a, info, chain, i, -, hchain, hbeg, hbs, hlen⟩ := h
  obtain ⟨startType, start, count⟩ := request
  have hle : payload.blocks.length ≤ count.toNat := hlen.trans_le (Nat.min_le_left _ _)
  have hcons : ∀ {sb}, chain.reverse[i]? = some sb → payload.blocks =
      sb.block :: ((chain.reverse.drop (i + 1)).take (count.toNat - 1)).map (·.block) := by
    intro sb hi
    obtain ⟨hlt, hsb⟩ := List.getElem?_eq_some_iff.mp hi
    rw [hbs, List.drop_eq_getElem_cons hlt, hsb, ← List.map_cons, ← List.take_succ_cons,
      Nat.sub_add_cancel hpos]
  cases startType with
  | account =>
    obtain ⟨rfl, rfl⟩ := hbeg
    obtain ⟨sb, hi, -⟩ := hchain.open_eq
    rw [verifyBlocks_byAccount (hcons hi) hle (hchain.isChain_drop hl hi _) rfl
      (hchain.accountField hl hi)]
    exact nofun
  | block =>
    obtain ⟨sb, hi, hhash⟩ := hbeg
    rw [verifyBlocks_byHash (hcons hi) hle (hchain.isChain_drop hl hi _) rfl hhash]
    split <;> exact nofun

/-! ### Frontiers -/

/-- The first accounts from the given one on, with their heads. -/
structure FirstFrontiers (l : Ledger) (start : Account) (count : ℕ) (frontiers : List Frontier) :
    Prop where
  length_le : frontiers.length ≤ count
  ascending : frontiers.Pairwise fun f g => f.account.number < g.account.number
  head : ∀ f ∈ frontiers, start.number ≤ f.account.number ∧
    ∃ info, l.account.get f.account = some info ∧ f.hash = info.head
  /-- An account is left out only behind as many as were asked for. -/
  first : ∀ a info, l.account.get a = some info → start.number ≤ a.number →
    (∃ f ∈ frontiers, f.account = a) ∨
      (frontiers.length = count ∧ ∀ f ∈ frontiers, f.account.number < a.number)

theorem mem_accountsRange {start : Account} {x : Account × AccountInfo} :
    x ∈ l.accountsRange start ↔ l.account.get x.1 = some x.2 ∧ start.number ≤ x.1.number := by
  exact Table.mem_range U256.byteLe

theorem pairwise_accountsRange (start : Account) :
    (l.accountsRange start).Pairwise fun x y => x.1.number < y.1.number := by
  refine List.Pairwise.imp (fun {x y} hr => ?_) (Table.pairwise_range U256.byteLe _ start)
  exact BitVec.lt_def.mpr (Nat.lt_of_le_of_ne hr.1 fun heq =>
    hr.2 (U256.ext (BitVec.eq_of_toNat_eq heq)))

/-- The server answers with the first accounts from the requested one on. -/
theorem firstFrontiers_take (start : Account) (count : ℕ) :
    l.FirstFrontiers start count
      (((l.accountsRange start).map fun x => Frontier.mk x.1 x.2.head).take count) := by
  have hpair : ((l.accountsRange start).map fun x => Frontier.mk x.1 x.2.head).Pairwise
      fun f g => f.account.number < g.account.number :=
    pairwise_map.mpr (pairwise_accountsRange start)
  refine ⟨length_take_le _ _, hpair.sublist (take_sublist _ _), ?_, ?_⟩
  · intro f hf
    obtain ⟨x, hx, rfl⟩ := mem_map.mp (mem_of_mem_take hf)
    obtain ⟨hinfo, hle⟩ := mem_accountsRange.mp hx
    exact ⟨hle, x.2, hinfo, rfl⟩
  · intro a info hinfo hle
    have hmem : Frontier.mk a info.head ∈
        (l.accountsRange start).map fun x => Frontier.mk x.1 x.2.head :=
      mem_map.mpr ⟨(a, info), mem_accountsRange.mpr ⟨hinfo, hle⟩, rfl⟩
    generalize (l.accountsRange start).map (fun x => Frontier.mk x.1 x.2.head) = all at hpair hmem
    rw [← take_append_drop count all] at hmem hpair
    obtain ⟨-, -, hbef⟩ := pairwise_append.mp hpair
    cases mem_append.mp hmem with
    | inl htake => exact .inl ⟨_, htake, rfl⟩
    | inr hdrop =>
      have hlen := length_pos_of_mem hdrop
      rw [length_drop] at hlen
      refine .inr ⟨?_, fun f hf => hbef f hf _ hdrop⟩
      rw [length_take]
      omega

/-- The requester does not find fault with the accounts that it asked for. -/
theorem FirstFrontiers.verifyFrontiers_ne_invalid {request : FrontiersReqPayload}
    {frontiers : List Frontier} (hzero : l.account.get 0 = none)
    (h : l.FirstFrontiers request.start request.count.toNat frontiers) (id : BitVec 64)
    (account : Account) (hash : BlockHash) (now : Timestamp) (timeout : ℕ) :
    (fromSpec id ⟨.frontiers request, account, hash⟩ now timeout).verifyFrontiers
      frontiers ≠ .invalid := by
  have habove : ∀ f ∈ frontiers, (0 : Account).number < f.account.number := by
    intro f hf
    obtain ⟨-, info, hinfo, -⟩ := h.head f hf
    refine BitVec.lt_def.mpr (Nat.pos_of_ne_zero fun heq => ?_)
    have hburn : f.account = 0 := U256.ext (BitVec.eq_of_toNat_eq heq)
    rw [hburn, hzero] at hinfo
    cases hinfo
  have hascending := areAccountsInAscendingOrder_of_pairwise habove h.ascending
  cases frontiers with
  | nil => exact nofun
  | cons first rest =>
    have hbeg : ¬ first.account.number < request.start.number :=
      BitVec.not_lt.mpr (h.head first mem_cons_self).1
    simp only [verifyFrontiers, fromSpec, hascending, U256.into, hbeg]
    exact nofun

/-! ### The agreement -/

/-- The answer to a request for blocks or frontiers that the server admits is never invalid for the
one who asked. Where it is taken for new, it is the part of the chain or the accounts that were
asked for. -/
theorem Chained.process_agrees (hl : l.Chained) (hzero : l.account.get 0 = none) (id : BitVec 64)
    (account : Account) (hash : BlockHash) (now : Timestamp) (timeout : ℕ) :
    (∀ request, verify ⟨id, .blocks request⟩ = true →
      ∃ payload,
        process l ⟨id, .blocks request⟩ = .ok ⟨id, .blocks payload⟩ ∧
        let q := fromSpec id ⟨.blocks request, account, hash⟩ now timeout
        q.isValidResponseType ⟨id, .blocks payload⟩ = true ∧ q.verifyBlocks payload ≠ .invalid ∧
          (q.verifyBlocks payload = .ok → l.IsSegment request payload.blocks)) ∧
    (∀ request, verify ⟨id, .frontiers request⟩ = true →
      ∃ frontiers,
        process l ⟨id, .frontiers request⟩ =
          .ok ⟨id, .frontiers frontiers⟩ ∧
        let q := fromSpec id ⟨.frontiers request, account, hash⟩ now timeout
        q.isValidResponseType ⟨id, .frontiers frontiers⟩ = true ∧
          q.verifyFrontiers frontiers ≠ .invalid ∧
          (q.verifyFrontiers frontiers = .ok →
            l.FirstFrontiers request.start request.count.toNat frontiers)) := by
  constructor
  · intro request hverify
    obtain ⟨payload, hprocess, hanswer⟩ := hl.processBlocks_eq id hverify
    refine ⟨payload, hprocess, decide_eq_true queryType_blocks, ?_, ?_⟩
    · cases hanswer with
      | inl hempty =>
        rw [verifyBlocks_nil queryType_blocks hempty]
        exact nofun
      | inr hsegment =>
        exact hsegment.verifyBlocks_ne_invalid hl (verify_blocks hverify).1 id
          account hash now timeout
    · intro hok
      cases hanswer with
      | inl hempty =>
        rw [verifyBlocks_nil queryType_blocks hempty] at hok
        cases hok
      | inr hsegment => exact hsegment
  · intro request _
    have hfirst := l.firstFrontiers_take request.start request.count.toNat
    exact ⟨_, rfl, rfl, hfirst.verifyFrontiers_ne_invalid hzero id account hash now timeout,
      fun _ => hfirst⟩

/-- The dev network answers a query for its first blocks. -/
theorem process_agrees_devReceived :
    devReceived.Chained ∧ devReceived.account.get 0 = none ∧
      ∃ payload, process devReceived
          ⟨7, .blocks ⟨.account, ⟨devGenesisKey⟩, 2⟩⟩ = .ok ⟨7, .blocks payload⟩ ∧
        (fromSpec 7 ⟨.blocks ⟨.account, ⟨devGenesisKey⟩, 2⟩, ⟨devGenesisKey⟩, 0⟩ 0
          5000).verifyBlocks payload ≠ .invalid := by
  have hl := reachable_devReceived.chained
  have hzero := reachable_devReceived.account_zero
  obtain ⟨payload, hprocess, -, hne, -⟩ :=
    (hl.process_agrees hzero 7 ⟨devGenesisKey⟩ 0 0 5000).1 ⟨.account, ⟨devGenesisKey⟩, 2⟩ (by decide)
  exact ⟨hl, hzero, payload, hprocess, hne⟩

/-- The genesis block of the dev network, if account zero had it. -/
def burnOpen : SavedBlock where
  block := .legacyOpen { devGenesisBlock with account := 0, representative := 0 }
  sideband := { devConstants.savedGenesis.sideband with account := 0 }

/-- A ledger in which account zero is opened. -/
def burnLedger : Ledger :=
  { genesis devConstants 0 with
    block := (∅ : Table _ _).put burnOpen.hash burnOpen
    account := (∅ : Table _ _).put 0
      { head := burnOpen.hash
        representative := 0
        openBlock := burnOpen.hash
        balance := Amount.max
        modified := 0
        blockCount := 1
        epoch := .epoch0 } }

/-- The tables of such a ledger describe account chains too, but the requester takes account zero
for one that is out of order. -/
theorem burnLedger_invalid :
    burnLedger.Chained ∧ burnLedger.ChainStructure ∧
      verify ⟨7, .frontiers ⟨0, 1⟩⟩ = true ∧
      ∃ frontiers, process burnLedger ⟨7, .frontiers ⟨0, 1⟩⟩ =
          .ok ⟨7, .frontiers frontiers⟩ ∧
        (fromSpec 7 ⟨.frontiers ⟨0, 1⟩, 0, 0⟩ 0 5000).verifyFrontiers frontiers =
          .invalid := by
  have hl : burnLedger.Chained :=
    .single burnOpen rfl rfl rfl rfl rfl rfl rfl ⟨rfl, rfl, rfl, rfl, rfl⟩ rfl rfl rfl
  refine ⟨hl, hl.chainStructure, by decide, _, rfl, by decide +kernel⟩

end Ledger

end RsNano
