import Mathlib.Tactic.Linarith
import OpenDsn.Mpool.HeadChange

/-!
# Message chains

`createMessageChains` of `chain/messagepool/selection.go` cuts the messages of
one sender that can go into the next block into chains, each with a better
performance than the next: a message goes into a chain of its own unless it
raises the performance of the one before it. The performance values are exact
rationals here.

* `createMessageChains_spec`: the chains together are the first executable
  messages of the sender, in the order of their nonces, and every chain carries
  the gas of its messages and a higher performance than the next.
-/

namespace OpenDsn.Mpool

open Lib Chain List

/-- A pointer to a chain: the sender it was made for and its place among the
chains of this sender. -/
structure ChainId where
  owner : Address
  index : Nat
deriving DecidableEq

structure MsgChain where
  msgs : List SignedMessage
  gasReward : Int
  gasLimit : Int
  gasPerf : ℚ
  effPerf : ℚ
  bp : ℚ
  parentOffset : ℚ
  valid : Bool
  merged : Bool
  next : Option ChainId
  prev : Option ChainId
  sigType : SigType

def getGasReward (msg : SignedMessage) (baseFee : Int) : Int :=
  let maxPremium := msg.message.gasFeeCap - baseFee
  let premium := if maxPremium > msg.message.gasPremium then msg.message.gasPremium else maxPremium
  let gasReward := premium * uint64 msg.message.gasLimit
  -- penalty multiplier
  if gasReward < 0 then gasReward * 3 else gasReward

def getGasPerf (gasReward gasLimit : Int) : ℚ :=
  ((gasReward * blockGasLimit : Int) : ℚ) * (1 / (gasLimit : ℚ))

/-! ## The messages that can be executed -/

/-- The state of the loop that looks for them. -/
structure Scan where
  skip : Nat
  i : Nat
  rewards : List Int

/-- The loop over the messages, sorted by nonce: it passes over nonces that are
already used and stops at a gap, at too little gas, when the block is full and
when the balance does not cover the next message. -/
def scanMessages (env : Env) (ts : TipSet) (baseFee : Int) :
    List SignedMessage → Nat → Int → Int → Scan → Scan
  | [], _, _, _, st => st
  | m :: rest, curNonce, balance, gasLimit, st =>
      if m.message.nonce < curNonce then
        scanMessages env ts baseFee rest curNonce balance gasLimit
          { st with skip := st.skip + 1, i := st.i + 1 }
      else if m.message.nonce ≠ curNonce then st
      else if m.message.gasLimit < env.onChainMessage ts.height m then st
      else if gasLimit + m.message.gasLimit > blockGasLimit then st
      else if balance < m.message.requiredFunds then st
      else
        scanMessages env ts baseFee rest (curNonce + 1)
          (balance - m.message.requiredFunds - m.message.value)
          (gasLimit + m.message.gasLimit)
          { st with i := st.i + 1, rewards := st.rewards ++ [getGasReward m baseFee] }

/-- The messages to build chains from, each with its reward. -/
def executable (env : Env) (ts : TipSet) (baseFee : Int) (msgs : List SignedMessage)
    (act : Actor) : List (SignedMessage × Int) :=
  let st := scanMessages env ts baseFee msgs act.nonce act.balance 0 ⟨0, 0, []⟩
  if st.i > st.skip then
    (((msgs.take st.i).drop st.skip).take blockMessageLimit).zip st.rewards
  else []

/-! ## Building the chains -/

def newChain (m : SignedMessage) (reward : Int) : MsgChain where
  msgs := [m]
  gasReward := reward
  gasLimit := m.message.gasLimit
  gasPerf := getGasPerf reward m.message.gasLimit
  effPerf := 0
  bp := 0
  parentOffset := 0
  valid := true
  merged := false
  next := none
  prev := none
  sigType := m.signature.type

/-- The first pass: a message joins the current chain unless it lowers the
performance. -/
def buildChains (curChain : MsgChain) : List (SignedMessage × Int) → List MsgChain
  | [] => [curChain]
  | (m, reward) :: rest =>
      let gasReward := curChain.gasReward + reward
      let gasLimit := curChain.gasLimit + m.message.gasLimit
      let gasPerf := getGasPerf gasReward gasLimit
      if gasPerf < curChain.gasPerf then curChain :: buildChains (newChain m reward) rest
      else
        buildChains
          { curChain with
            msgs := curChain.msgs ++ [m]
            gasReward := gasReward
            gasLimit := gasLimit
            gasPerf := gasPerf } rest

/-- A chain with the following one merged into it. -/
def joinChains (c d : MsgChain) : MsgChain :=
  { c with
    msgs := c.msgs ++ d.msgs
    gasReward := c.gasReward + d.gasReward
    gasLimit := c.gasLimit + d.gasLimit
    gasPerf := getGasPerf (c.gasReward + d.gasReward) (c.gasLimit + d.gasLimit) }

/-- One round of the second pass, from the last chain to the first: a chain that
does not perform worse than the one before it is merged into that one. The
number says how many were merged. -/
def mergePass : List MsgChain → List MsgChain × Nat
  | [] => ([], 0)
  | c :: cs =>
      match mergePass cs with
      | ([], merged) => ([c], merged)
      | (d :: ds, merged) =>
          if d.gasPerf ≥ c.gasPerf then (joinChains c d :: ds, merged + 1)
          else (c :: d :: ds, merged)

/-- The second pass. A round that merges leaves fewer chains, so their number
bounds the rounds. -/
def mergeLoop : Nat → List MsgChain → List MsgChain
  | 0, cs => cs
  | fuel + 1, cs =>
      match mergePass cs with
      | (_, 0) => cs
      | (cs', _ + 1) => mergeLoop fuel cs'

/-- The pointers between the chains of a sender. -/
def linkChains (owner : Address) (cs : List MsgChain) : List MsgChain :=
  cs.mapIdx fun i c =>
    { c with
      next := if i + 1 < cs.length then some ⟨owner, i + 1⟩ else none
      prev := if 0 < i then some ⟨owner, i - 1⟩ else none }

/-- The chains of the messages in `mset`, which `owner` has in the pending map
and `actor` sends. -/
def createMessageChains (env : Env) (owner actor : Address) (mset : Table Nat SignedMessage)
    (baseFee : Int) (ts : TipSet) : List MsgChain :=
  let msgs := env.sorter.sort (fun a b : SignedMessage => a.message.nonce < b.message.nonce)
    (env.order.arrange mset.values)
  match env.getActorAfter actor ts with
  | none => []
  | some act =>
      match executable env ts baseFee msgs act with
      | [] => []
      | (m, reward) :: rest =>
          let cs := buildChains (newChain m reward) rest
          linkChains owner (mergeLoop cs.length cs)

/-- `Before`: the higher performance, then the higher reward. -/
def MsgChain.before (mc other : MsgChain) : Bool :=
  mc.gasPerf > other.gasPerf ||
    (mc.gasPerf = other.gasPerf && mc.gasReward > other.gasReward)

/-! ## What the chains are -/

/-- The gas that messages may use together. -/
def gasOf : List SignedMessage → Int
  | [] => 0
  | m :: msgs => m.message.gasLimit + gasOf msgs

/-- A chain as it is built: it has messages and carries their gas. -/
structure MsgChain.Fresh (c : MsgChain) : Prop where
  valid : c.valid = true
  unmerged : c.merged = false
  nonempty : c.msgs ≠ []
  gas : c.gasLimit = gasOf c.msgs
  sigType : ∃ m ∈ c.msgs, c.sigType = m.signature.type

/-- The chains of a sender with the account nonce `nonce`. -/
structure ChainsSpec (owner : Address) (mset : Table Nat SignedMessage) (nonce : Nat)
    (cs : List MsgChain) : Prop where
  fresh : ∀ c ∈ cs, c.Fresh
  perf : cs.Pairwise fun c d => d.gasPerf < c.gasPerf
  next : ∀ i c, cs[i]? = some c → c.next = if i + 1 < cs.length then some ⟨owner, i + 1⟩ else none
  prev : ∀ i c, cs[i]? = some c → c.prev = if 0 < i then some ⟨owner, i - 1⟩ else none
  nonces : (cs.flatMap MsgChain.msgs).map (·.message.nonce) =
    List.range' nonce (cs.flatMap MsgChain.msgs).length
  mem : ∀ m ∈ cs.flatMap MsgChain.msgs, m ∈ mset.values

namespace ChainsLemmas

variable {env : Env} {ts : TipSet} {baseFee : Int}

theorem gasOf_append (l l' : List SignedMessage) : gasOf (l ++ l') = gasOf l + gasOf l' := by
  induction l with
  | nil => simp [gasOf]
  | cons m l ih => rw [cons_append, gasOf, gasOf, ih, add_assoc]

/-! ### The scan -/

/-- A scan of `l` for messages from nonce `cur` on ended in `st'`: it passed over
used nonces and then took messages with successive nonces. -/
def Scanned (baseFee : Int) (l : List SignedMessage) (cur : Nat) (st st' : Scan) : Prop :=
  ∃ skipped used rest, l = skipped ++ used ++ rest ∧ (∀ m ∈ skipped, m.message.nonce < cur) ∧
    used.map (·.message.nonce) = List.range' cur used.length ∧
    st'.skip = st.skip + skipped.length ∧
    st'.i = st.i + skipped.length + used.length ∧
    st'.rewards = st.rewards ++ used.map (getGasReward · baseFee)

theorem Scanned.stop (l : List SignedMessage) (cur : Nat) (st : Scan) :
    Scanned baseFee l cur st st :=
  ⟨[], [], l, rfl, by simp, rfl, rfl, rfl, by simp⟩

section

variable (env ts baseFee)

theorem scanMessages_scanned {l : List SignedMessage}
    (hl : l.Pairwise fun a b => a.message.nonce < b.message.nonce) (cur : Nat)
    (balance gas : Int) (st : Scan) :
    Scanned baseFee l cur st (scanMessages env ts baseFee l cur balance gas st) := by
  induction l generalizing cur balance gas st with
  | nil => exact .stop [] cur st
  | cons m l ih =>
    obtain ⟨hm, hl⟩ := pairwise_cons.mp hl
    unfold scanMessages
    split
    · next hlt =>
      obtain ⟨skipped, used, rest, rfl, hsk, hused, hskip, hi, hrew⟩ :=
        ih hl cur balance gas { st with skip := st.skip + 1, i := st.i + 1 }
      dsimp only at hskip hi
      refine ⟨m :: skipped, used, rest, rfl, forall_mem_cons.mpr ⟨hlt, hsk⟩, hused, ?_, ?_,
        hrew⟩
      · rw [hskip, length_cons]; omega
      · rw [hi, length_cons]; omega
    split
    · exact .stop _ cur st
    next hne =>
    split
    · exact .stop _ cur st
    split
    · exact .stop _ cur st
    split
    · exact .stop _ cur st
    obtain ⟨skipped, used, rest, rfl, hsk, hused, hskip, hi, hrew⟩ := ih hl (cur + 1)
      (balance - m.message.requiredFunds - m.message.value) (gas + m.message.gasLimit)
      { st with i := st.i + 1, rewards := st.rewards ++ [getGasReward m baseFee] }
    have hcur : m.message.nonce = cur := not_not.mp hne
    -- the messages behind `m` have higher nonces, so none of them is skipped
    have hnil : skipped = [] := by
      refine eq_nil_iff_forall_not_mem.mpr fun x hx => ?_
      have hlow := hsk x hx
      have hhigh := hm x (by simp [hx])
      omega
    subst hnil
    dsimp only [length_nil] at hskip hi
    refine ⟨[], m :: used, rest, rfl, by simp, ?_, hskip, ?_, ?_⟩
    · rw [map_cons, hused, hcur, length_cons, range'_succ]
    · rw [hi, length_cons, length_nil]; omega
    · rw [hrew, map_cons, append_assoc, singleton_append]

theorem zip_take_map {α β : Type} (f : α → β) (l : List α) (n : Nat) :
    (l.take n).zip (l.map f) = (l.take n).map fun a => (a, f a) := by
  induction l generalizing n with
  | nil => simp
  | cons a l ih =>
    cases n with
    | zero => rfl
    | succ n => simp only [take_succ_cons, map_cons, zip_cons_cons, ih]

theorem take_range' (s len n : Nat) : (List.range' s len).take n = List.range' s (min n len) := by
  induction len generalizing s n with
  | zero => simp
  | succ len ih =>
    cases n with
    | zero => simp
    | succ n => rw [Nat.succ_min_succ, range'_succ, range'_succ, take_succ_cons, ih]

theorem executable_eq {l : List SignedMessage}
    (hl : l.Pairwise fun a b => a.message.nonce < b.message.nonce) (act : Actor) :
    ∃ used : List SignedMessage,
      executable env ts baseFee l act = used.map (fun m => (m, getGasReward m baseFee)) ∧
      used.map (·.message.nonce) = List.range' act.nonce used.length ∧ ∀ m ∈ used, m ∈ l := by
  obtain ⟨skipped, used, rest, rfl, -, hused, hskip, hi, hrew⟩ :=
    scanMessages_scanned env ts baseFee hl act.nonce act.balance 0 ⟨0, 0, []⟩
  unfold executable
  dsimp only at hskip hi ⊢
  split
  · rw [hskip, hi, hrew, zero_add, ← length_append, take_left, drop_left,
      nil_append, zip_take_map]
    refine ⟨used.take blockMessageLimit, rfl, ?_, fun m hm => ?_⟩
    · rw [map_take, hused, take_range', length_take]
    · simp [mem_of_mem_take hm]
  · exact ⟨[], rfl, rfl, by simp⟩

end

/-! ### Building and merging -/

theorem newChain_fresh (m : SignedMessage) (reward : Int) : (newChain m reward).Fresh where
  valid := rfl
  unmerged := rfl
  nonempty := cons_ne_nil m []
  gas := by simp [newChain, gasOf]
  sigType := ⟨m, mem_singleton.mpr rfl, rfl⟩

theorem buildChains_fresh {c : MsgChain} (hc : c.Fresh) (l : List (SignedMessage × Int)) :
    (∀ d ∈ buildChains c l, d.Fresh) ∧
      (buildChains c l).flatMap MsgChain.msgs = c.msgs ++ l.map Prod.fst := by
  induction l generalizing c with
  | nil => exact ⟨fun d hd => mem_singleton.mp hd ▸ hc, by simp [buildChains]⟩
  | cons x l ih =>
    obtain ⟨m, reward⟩ := x
    unfold buildChains
    dsimp only
    split
    · obtain ⟨hfresh, hmsgs⟩ := ih (newChain_fresh m reward)
      refine ⟨forall_mem_cons.mpr ⟨hc, hfresh⟩, ?_⟩
      rw [flatMap_cons, hmsgs]
      rfl
    · obtain ⟨s, hs, hsig⟩ := hc.sigType
      obtain ⟨hfresh, hmsgs⟩ := ih (c := { c with
          msgs := c.msgs ++ [m]
          gasReward := c.gasReward + reward
          gasLimit := c.gasLimit + m.message.gasLimit
          gasPerf := getGasPerf (c.gasReward + reward) (c.gasLimit + m.message.gasLimit) })
        { valid := hc.valid
          unmerged := hc.unmerged
          nonempty := by simp
          gas := by simp [gasOf_append, gasOf, hc.gas]
          sigType := ⟨s, mem_append_left _ hs, hsig⟩ }
      exact ⟨hfresh, by rw [hmsgs, append_assoc]; rfl⟩

theorem joinChains_fresh {c d : MsgChain} (hc : c.Fresh) (hd : d.Fresh) :
    (joinChains c d).Fresh where
  __ := hc
  nonempty := append_ne_nil_of_left_ne_nil hc.nonempty d.msgs
  gas := by simp only [joinChains, gasOf_append, hc.gas, hd.gas]
  sigType := by
    obtain ⟨m, hm, hsig⟩ := hc.sigType
    exact ⟨m, mem_append_left _ hm, hsig⟩

/-- What a round of merging keeps. -/
structure Merges (cs cs' : List MsgChain) : Prop where
  fresh : (∀ c ∈ cs, c.Fresh) → ∀ c ∈ cs', c.Fresh
  msgs : cs'.flatMap MsgChain.msgs = cs.flatMap MsgChain.msgs

theorem mergePass_merges (cs : List MsgChain) : Merges cs (mergePass cs).1 ∧
    (mergePass cs).1.length + (mergePass cs).2 = cs.length := by
  induction cs with
  | nil => exact ⟨⟨id, rfl⟩, rfl⟩
  | cons c cs ih =>
    unfold mergePass
    cases hp : mergePass cs with
    | mk ds merged =>
      rw [hp] at ih
      obtain ⟨ih, hlen⟩ := ih
      cases ds with
      | nil =>
        have hnil : cs.flatMap MsgChain.msgs = [] := ih.msgs.symm
        refine ⟨⟨fun h => ?_, by simp [hnil]⟩, by simp at hlen ⊢; omega⟩
        exact forall_mem_singleton.mpr (h c mem_cons_self)
      | cons d ds =>
        have hfresh : (∀ e ∈ c :: cs, e.Fresh) → c.Fresh ∧ d.Fresh ∧ ∀ e ∈ ds, e.Fresh := by
          intro h
          obtain ⟨hc, hcs⟩ := forall_mem_cons.mp h
          exact ⟨hc, forall_mem_cons.mp (ih.fresh hcs)⟩
        have hmsgs := ih.msgs
        rw [flatMap_cons] at hmsgs
        rw [length_cons] at hlen
        dsimp only at hlen ⊢
        split
        · refine ⟨⟨fun h => ?_, ?_⟩, by simp only [length_cons]; omega⟩
          · obtain ⟨hc, hd, hds⟩ := hfresh h
            exact forall_mem_cons.mpr ⟨joinChains_fresh hc hd, hds⟩
          · rw [flatMap_cons, flatMap_cons, ← hmsgs, ← append_assoc]
            rfl
        · refine ⟨⟨fun h => ?_, ?_⟩, by simp only [length_cons]; omega⟩
          · obtain ⟨hc, hds⟩ := hfresh h
            exact forall_mem_cons.mpr ⟨hc, forall_mem_cons.mpr hds⟩
          · rw [flatMap_cons, flatMap_cons, flatMap_cons, ← hmsgs]

/-- A round without a merge leaves the chains alone, and each performs better
than the next. -/
theorem mergePass_zero {cs ds : List MsgChain} (h : mergePass cs = (ds, 0)) :
    ds = cs ∧ cs.IsChain fun c d => d.gasPerf < c.gasPerf := by
  induction cs generalizing ds with
  | nil => cases h; exact ⟨rfl, .nil⟩
  | cons c cs ih =>
    unfold mergePass at h
    cases hp : mergePass cs with
    | mk es merged =>
      rw [hp] at h
      cases es with
      | nil =>
        cases h
        obtain ⟨rfl, -⟩ := ih hp
        exact ⟨rfl, .singleton c⟩
      | cons e es =>
        dsimp only at h
        split at h
        · cases h
        next hperf =>
        cases h
        obtain ⟨rfl, hchain⟩ := ih hp
        exact ⟨rfl, .cons_cons (not_le.mp hperf) hchain⟩

theorem mergeLoop_spec {fuel : Nat} {cs : List MsgChain} (hfuel : cs.length ≤ fuel) :
    Merges cs (mergeLoop fuel cs) ∧
      (mergeLoop fuel cs).IsChain fun c d => d.gasPerf < c.gasPerf := by
  induction fuel generalizing cs with
  | zero =>
    obtain rfl := length_eq_zero_iff.mp (Nat.le_zero.mp hfuel)
    exact ⟨⟨id, rfl⟩, .nil⟩
  | succ fuel ih =>
    unfold mergeLoop
    cases hp : mergePass cs with
    | mk ds merged =>
      cases merged with
      | zero => exact ⟨⟨id, rfl⟩, (mergePass_zero hp).2⟩
      | succ n =>
        obtain ⟨hmerges, hlen⟩ := mergePass_merges cs
        rw [hp] at hmerges hlen
        dsimp only at hmerges hlen ⊢
        have hds : ds.length ≤ fuel := by omega
        obtain ⟨hrest, hchain⟩ := ih hds
        exact ⟨⟨fun h => hrest.fresh (hmerges.fresh h), hrest.msgs.trans hmerges.msgs⟩, hchain⟩

/-! ### Linking -/

variable {owner : Address} {cs : List MsgChain}

theorem linkChains_get {i : Nat} {c : MsgChain} (h : (linkChains owner cs)[i]? = some c) :
    ∃ d, cs[i]? = some d ∧ c =
      { d with
        next := if i + 1 < cs.length then some ⟨owner, i + 1⟩ else none
        prev := if 0 < i then some ⟨owner, i - 1⟩ else none } := by
  unfold linkChains at h
  rw [getElem?_mapIdx] at h
  obtain ⟨d, hd, hc⟩ := Option.map_eq_some_iff.mp h
  exact ⟨d, hd, hc.symm⟩

theorem linkChains_map {α : Type} (f : MsgChain → α)
    (hf : ∀ c n p, f { c with next := n, prev := p } = f c)
    (owner : Address) (cs : List MsgChain) : (linkChains owner cs).map f = cs.map f := by
  refine ext_getElem? fun i => ?_
  rw [getElem?_map, getElem?_map, linkChains, getElem?_mapIdx, Option.map_map]
  exact Option.map_congr fun c _ => hf c _ _

theorem linkChains_fresh (h : ∀ c ∈ cs, c.Fresh) : ∀ c ∈ linkChains owner cs, c.Fresh := by
  intro c hc
  obtain ⟨i, hi⟩ := mem_iff_getElem?.mp hc
  obtain ⟨d, hd, rfl⟩ := linkChains_get hi
  have hfresh := h d (mem_of_getElem? hd)
  exact { hfresh with }

theorem linkChains_perf (h : cs.IsChain fun c d => d.gasPerf < c.gasPerf) :
    (linkChains owner cs).Pairwise fun c d => d.gasPerf < c.gasPerf := by
  have htrans : cs.Pairwise fun c d => d.gasPerf < c.gasPerf := by
    exact isChain_iff_pairwise.mp h
  have hperf := linkChains_map MsgChain.gasPerf (fun _ _ _ => rfl) owner cs
  have hsorted : ((linkChains owner cs).map MsgChain.gasPerf).Pairwise fun a b => b < a := by
    rw [hperf]
    exact pairwise_map.mpr htrans
  exact pairwise_map.mp hsorted

/-! ### The sorted messages -/

variable (env : Env) (mset : Table Nat SignedMessage)

theorem sorted_perm : (env.sorter.sort (fun a b => a.message.nonce < b.message.nonce)
    (env.order.arrange mset.values)).Perm mset.values :=
  (env.sorter.perm _ _).trans (env.order.perm _)

variable {mset} in
/-- The messages of a set, which are stored under their nonces, sorted. -/
theorem sorted_pairwise
    (hkey : ∀ n m, mset.get? n = some m → m.message.nonce = n) :
    (env.sorter.sort (fun a b : SignedMessage => a.message.nonce < b.message.nonce)
      (env.order.arrange mset.values)).Pairwise
        fun a b => a.message.nonce < b.message.nonce := by
  have hweak : StrictWeak fun a b : SignedMessage =>
      decide (a.message.nonce < b.message.nonce) := .of_key fun _ _ => decide_eq_true_iff
  have hnodup : (mset.values.map (·.message.nonce)).Nodup := by
    have hkeys : mset.values.map (·.message.nonce) = mset.keys := by
      unfold Table.values AList.keys List.keys
      rw [map_map]
      refine map_congr_left fun e he => ?_
      exact hkey e.1 e.2 (AList.mem_lookup_iff.mpr he)
    rw [hkeys]
    exact AList.keys_nodup mset
  have hperm := sorted_perm env mset
  have hne := pairwise_map.mp ((hperm.map (·.message.nonce)).nodup_iff.mpr hnodup)
  refine ((env.sorter.sorted (env.order.arrange mset.values) hweak).and hne).imp ?_
  rintro a b ⟨hle, hneq⟩
  simp only [decide_eq_false_iff_not] at hle
  omega

end ChainsLemmas

open ChainsLemmas in
theorem createMessageChains_spec {env : Env} {owner actor : Address}
    {mset : Table Nat SignedMessage} {ts : TipSet} {act : Actor} (baseFee : Int)
    (hkey : ∀ n m, mset.get? n = some m → m.message.nonce = n)
    (hact : env.getActorAfter actor ts = some act) :
    ChainsSpec owner mset act.nonce (createMessageChains env owner actor mset baseFee ts) := by
  have hsorted := sorted_pairwise env hkey
  have hperm := sorted_perm env mset
  obtain ⟨used, hexec, hnonces, hmem⟩ := executable_eq env ts baseFee hsorted act
  unfold createMessageChains
  rw [hact]
  dsimp only
  rw [hexec]
  cases used with
  | nil => exact ⟨by simp, .nil, by simp, by simp, rfl, by simp⟩
  | cons m used =>
    rw [map_cons]
    dsimp only
    obtain ⟨hfresh, hmsgs⟩ := buildChains_fresh (newChain_fresh m (getGasReward m baseFee))
      (used.map fun m => (m, getGasReward m baseFee))
    generalize buildChains _ _ = cs at hfresh hmsgs ⊢
    obtain ⟨hmerges, hchain⟩ := mergeLoop_spec (le_refl cs.length)
    generalize mergeLoop cs.length cs = ds at hmerges hchain ⊢
    have hall : (linkChains owner ds).flatMap MsgChain.msgs = m :: used := by
      rw [flatMap_def, linkChains_map MsgChain.msgs fun _ _ _ => rfl, ← flatMap_def,
        hmerges.msgs, hmsgs, map_map]
      simp [newChain, Function.comp_def]
    refine ⟨linkChains_fresh (hmerges.fresh hfresh), linkChains_perf hchain, ?_, ?_, ?_, ?_⟩
    · intro i c hc
      obtain ⟨d, -, rfl⟩ := linkChains_get hc
      rw [linkChains, length_mapIdx]
    · intro i c hc
      obtain ⟨d, -, rfl⟩ := linkChains_get hc
      rfl
    · rw [hall, hnonces]
    · rw [hall]
      exact fun x hx => hperm.mem_iff.mp (hmem x hx)

end OpenDsn.Mpool
