import OpenDsn.Lib.Run
import OpenDsn.State.Tree

/-!
# The layers of the state tree are a stack of maps

Every operation on the layered tree returns what the same operation returns on a stack
of complete maps. The caches do not show: an actor that was read and put into a layer is
the one below it, and an address that was resolved once still resolves to the same ID,
as the address table only grows on the way from a layer to the next one.

* `stateTree_refines`: whole runs from a saved tree agree with the reference, and every
  resolved address in a layer is found;
* `flush_shows_iff`: a tree is saved as it is shown exactly if it deletes saved actors only.
-/

namespace OpenDsn.State

open Lib Mpool List Option

variable {Act : Type}

/-- Addresses that resolve in `m` resolve to the same ID in `m'`. -/
def Grows (env : TreeEnv Act) (m m' : ActorMap Act) : Prop :=
  ∀ addr i, RefTree.lookupID env m addr = .ok i → RefTree.lookupID env m' addr = .ok i

/-- The operation does not take addresses out of the table that the init actor of the
map at the top has. Reverting goes back to another branch. -/
def KeepsAddresses (env : TreeEnv Act) (ref : RefTree Act) : TreeOp Act → Prop
  | .setActor addr act => ∀ m, RefTree.setActor env ref.top addr act = .ok m → Grows env ref.top m
  | .deleteActor addr => ∀ m, RefTree.deleteActor env ref.top addr = .ok m → Grows env ref.top m
  | _ => True

/-- The reference as a step function. -/
def refNext (env : TreeEnv Act) (ref : RefTree Act) (op : TreeOp Act) : Option (RefTree Act) :=
  (refStep env ref op).map Prod.snd

/-- `l` lists the actors of `m`, each one once. -/
structure Lists (l : List (ActorId × Act)) (m : ActorMap Act) : Prop where
  nodup : (l.map Prod.fst).Nodup
  mem : ∀ i act, (i, act) ∈ l ↔ m i = some act

/-- The two results are the same; `ForEach` visits the actors in some order. -/
inductive Agrees :
    TreeResult Act (List (ActorId × Act)) → TreeResult Act (ActorMap Act) → Prop
  | done : Agrees .done .done
  | failed (e : TreeError) : Agrees (.failed e) (.failed e)
  | actor (act : Act) : Agrees (.actor act) (.actor act)
  | id (i : ActorId) : Agrees (.id i) (.id i)
  | all {l : List (ActorId × Act)} {m : ActorMap Act} : Lists l m → Agrees (.all l) (.all m)

/-- `resolveAddress` finds the newest entry of all layers. -/
def NothingHidden (ss : StateSnaps Act) : Prop :=
  ∀ addr, (ss.resolveAddress addr).1 = ss.layers.findSome? (·.resolveCache.get? addr)

/-- `Revert` leaves no entry of the last layer. -/
structure NothingSurvives (st : StateTree Act) : Prop where
  actor : ∀ i, StateSnaps.findOp st.revert.snaps.layers i = StateSnaps.findOp st.snaps.below i
  address : ∀ addr, (st.revert.snaps.resolveAddress addr).1 =
    st.snaps.below.findSome? (·.resolveCache.get? addr)

/-- Two runs: both lack the layer for some operation, or both return the same results and
end in states that are related. -/
inductive RunAgrees (R : StateTree Act → RefTree Act → Prop) :
    Option (List (TreeResult Act (List (ActorId × Act))) × StateTree Act) →
    Option (List (TreeResult Act (ActorMap Act)) × RefTree Act) → Prop
  | stuck : RunAgrees R none none
  | ran {rs : List (TreeResult Act (List (ActorId × Act)))} {st : StateTree Act}
      {rs' : List (TreeResult Act (ActorMap Act))} {ref : RefTree Act} :
      List.Forall₂ Agrees rs rs' → R st ref → RunAgrees R (some (rs, st)) (some (rs', ref))

/-! ## The relation between layers and maps -/

/-- The actor that an entry leaves. -/
def StreeOp.value : StreeOp Act → Option Act
  | .set act => some act
  | .delete => none

/-- A layer over a map. -/
def overlay (layer : StateSnapLayer Act) (m : ActorMap Act) : ActorMap Act := fun i =>
  match layer.actors.get? i with
  | some op => op.value
  | none => m i

/-- What was resolved still resolves. -/
def CacheOk (env : TreeEnv Act) (layer : StateSnapLayer Act) (m : ActorMap Act) : Prop :=
  ∀ addr i, layer.resolveCache.get? addr = some i → RefTree.lookupID env m addr = .ok i

/-- The layers over the saved tree give the map, and without the last one the next map
of the stack, and so on. -/
inductive Layered (env : TreeEnv Act) (root : Table ActorId Act) :
    List (StateSnapLayer Act) → ActorMap Act → List (ActorMap Act) → Prop
  | base : Layered env root [] root.get? []
  | layer {layer : StateSnapLayer Act} {layers : List (StateSnapLayer Act)} {m : ActorMap Act}
      {ms : List (ActorMap Act)} :
      Layered env root layers m ms → CacheOk env layer (overlay layer m) →
      Grows env m (overlay layer m) → Layered env root (layer :: layers) (overlay layer m) (m :: ms)

/-- The layers above the index have no resolved addresses. -/
structure IndexOk (ss : StateSnaps Act) : Prop where
  le : ss.maybeNonEmpty ≤ ss.layers.length
  empty : ∀ layer ∈ ss.layers.take (ss.layers.length - ss.maybeNonEmpty),
    layer.resolveCache.size = 0

structure Refines (env : TreeEnv Act) (st : StateTree Act) (ref : RefTree Act) : Prop where
  layered : Layered env st.root st.snaps.layers ref.top ref.below
  index : IndexOk st.snaps

variable {env : TreeEnv Act} {st : StateTree Act} {ref : RefTree Act}
  {root : Table ActorId Act} {m m' : ActorMap Act} {ms : List (ActorMap Act)}
  {layer : StateSnapLayer Act} {layers : List (StateSnapLayer Act)}

theorem Grows.refl (m : ActorMap Act) : Grows env m m := fun _ _ h => h

theorem Grows.trans {m'' : ActorMap Act} (h : Grows env m m') (h' : Grows env m' m'') :
    Grows env m m'' := fun addr i hi => h' addr i (h addr i hi)

section

variable (h : Layered env root layers m ms)
include h

/-- The map at the top, read from the layers. -/
theorem Layered.apply (i : ActorId) : m i = match StateSnaps.findOp layers i with
      | some op => op.value
      | none => root.get? i := by
  induction h with
  | base => rfl
  | @layer layer layers m ms _ _ _ ih =>
    unfold overlay StateSnaps.findOp
    cases layer.actors.get? i with
    | none => exact ih
    | some op => rfl

/-- A resolved address of any layer resolves at the top. -/
theorem Layered.resolves (hmem : layer ∈ layers)
    {addr : Address} {i : ActorId} (hi : layer.resolveCache.get? addr = some i) :
    RefTree.lookupID env m addr = .ok i := by
  induction h with
  | base => cases hmem
  | layer _ hcache hgrow ih =>
    rcases mem_cons.mp hmem with rfl | hmem
    · exact hcache addr i hi
    · exact hgrow addr i (ih hmem)

/-- An empty layer shows the map below it. -/
theorem Layered.push : Layered env root (newStateSnapLayer :: layers) m (m :: ms) := by
  exact .layer h (fun _ _ h => nomatch h) (.refl _)

end

/-- The index only speaks about resolved addresses. -/
theorem IndexOk.of_caches {ss ss' : StateSnaps Act} (h : IndexOk ss)
    (hn : ss'.maybeNonEmpty = ss.maybeNonEmpty)
    (hc : ss'.layers.map StateSnapLayer.resolveCache = ss.layers.map StateSnapLayer.resolveCache) :
    IndexOk ss' := by
  have hlen : ss'.layers.length = ss.layers.length := by
    simpa using congrArg List.length hc
  refine ⟨by rw [hn, hlen]; exact h.le, fun layer hmem => ?_⟩
  rw [hn, hlen] at hmem
  have hcache : layer.resolveCache ∈
      (ss.layers.take (ss.layers.length - ss.maybeNonEmpty)).map StateSnapLayer.resolveCache := by
    rw [map_take, ← hc, ← map_take]
    exact mem_map_of_mem hmem
  obtain ⟨layer', hmem', heq⟩ := mem_map.mp hcache
  rw [← heq]
  exact h.empty layer' hmem'

namespace RefinementLemmas

open StateSnaps RefTree Table

variable {ss ss' : StateSnaps Act} {addr : Address} {i : ActorId}
  {ops : List (TreeOp Act)}

/-! ### Actors -/

theorem overlay_put (op : StreeOp Act) :
    overlay { layer with actors := layer.actors.insert i op } m =
      RefTree.put (overlay layer m) i op.value := by
  funext j
  unfold overlay put
  rw [get?_insert]
  by_cases hj : j = i
  · rw [if_pos hj, if_pos hj]
  · rw [if_neg hj, if_neg hj]

/-- An entry is written into the last layer. -/
theorem refines_putOp (h : Refines env st ref) (op : StreeOp Act)
    (hgrow : Grows env ref.top (RefTree.put ref.top i op.value)) :
    Refines env { st with snaps := st.snaps.putOp i op }
      { ref with top := RefTree.put ref.top i op.value } := by
  refine ⟨?_, h.index.of_caches rfl rfl⟩
  obtain ⟨hl, -⟩ := h
  obtain ⟨top, below⟩ := ref
  dsimp only at hl hgrow ⊢
  cases hl with
  | layer hbelow hcache hgrown =>
    rw [← overlay_put] at hgrow ⊢
    exact .layer hbelow (fun addr a ha => hgrow addr a (hcache addr a ha)) (hgrown.trans hgrow)

theorem put_eq_self {o : Option Act} (h : m i = o) : RefTree.put m i o = m := by
  funext j
  unfold put
  split
  · next hj => rw [hj, h]
  · rfl

theorem getActorById_spec (h : Refines env st ref) :
    ∃ st', st.getActorById i = (RefTree.actorAt ref.top i, st') ∧ Refines env st' ref := by
  have happly := h.layered.apply i
  unfold StateTree.getActorById actorAt
  cases hop : findOp st.snaps.layers i with
  | some op =>
    rw [hop] at happly
    cases op with
    | set act | delete => exact ⟨st, by rw [happly]; rfl, h⟩
  | none =>
    rw [hop] at happly
    rw [happly]
    cases hroot : st.root.get? i with
    | none => exact ⟨st, rfl, h⟩
    | some act =>
      -- the copy in the last layer is the actor that was there
      have hself := put_eq_self (happly.trans hroot)
      have hput := refines_putOp h (.set act) (by rw [StreeOp.value, hself]; exact .refl _)
      rw [StreeOp.value, hself] at hput
      exact ⟨_, rfl, hput⟩

/-! ### Addresses -/

theorem resolveLoop_found (n : Nat) :
    (StateSnaps.resolveLoop addr layers n).1 = layers.findSome? (·.resolveCache.get? addr) := by
  induction layers generalizing n with
  | nil => rfl
  | cons layer rest ih =>
    unfold resolveLoop
    rw [findSome?_cons]
    split
    · next hsize =>
      rw [size_eq_zero_iff.mp hsize addr]
      exact ih _
    · cases layer.resolveCache.get? addr with
      | some resa => rfl
      | none => exact ih n

/-- The loop lowers the index past layers without resolved addresses only. -/
theorem resolveLoop_index (addr : Address) {n : Nat} (hn : layers.length ≤ n) :
    (StateSnaps.resolveLoop addr layers n).2 = n ∨
      n = layers.length ∧ (StateSnaps.resolveLoop addr layers n).2 ≤ n ∧
        ∀ layer ∈ layers.take (n - (StateSnaps.resolveLoop addr layers n).2),
          layer.resolveCache.size = 0 := by
  induction layers generalizing n with
  | nil => exact .inl rfl
  | cons layer rest ih =>
    rw [length_cons] at hn
    unfold resolveLoop dropIndex
    split
    · next hsize =>
      split
      · next heq =>
        right
        subst heq
        generalize hr : (resolveLoop addr rest rest.length).2 = n' at ih ⊢
        have hcase : n' ≤ rest.length ∧
            ∀ layer ∈ rest.take (rest.length - n'), layer.resolveCache.size = 0 := by
          have := ih (le_refl rest.length)
          rw [hr] at this
          rcases this with rfl | ⟨-, hle, hempty⟩
          · exact ⟨le_refl _, by simp⟩
          · exact ⟨hle, hempty⟩
        refine ⟨rfl, Nat.le_succ_of_le hcase.1, ?_⟩
        rw [Nat.succ_sub hcase.1, take_succ_cons]
        exact forall_mem_cons.mpr ⟨hsize, hcase.2⟩
      · next hne =>
        rcases ih (Nat.le_of_succ_le hn) with heq | ⟨heq, -⟩
        · exact .inl heq
        · omega
    · cases layer.resolveCache.get? addr with
      | some resa => exact .inl rfl
      | none =>
        rcases ih (Nat.le_of_succ_le hn) with heq | ⟨heq, -⟩
        · exact .inl heq
        · omega

theorem IndexOk.resolveAddress (h : IndexOk ss) (addr : Address) :
    IndexOk (ss.resolveAddress addr).2 := by
  have hlen : ss.searched.length = ss.maybeNonEmpty := by
    have := h.le
    unfold searched
    rw [length_drop]
    omega
  have hindex := resolveLoop_index addr (le_of_eq hlen)
  show IndexOk { ss with maybeNonEmpty := (resolveLoop addr ss.searched _).2 }
  generalize (resolveLoop addr ss.searched ss.maybeNonEmpty).2 = n' at hindex ⊢
  rcases hindex with rfl | ⟨-, hle, hempty⟩
  · exact h
  refine ⟨hle.trans h.le, fun layer hmem => ?_⟩
  -- the layers above the new index: those above the old one, and those in between
  have hmem : layer ∈ ss.layers.take (ss.layers.length - n') := hmem
  have hsplit : ss.layers.length - n' =
      (ss.layers.length - ss.maybeNonEmpty) + (ss.maybeNonEmpty - n') := by
    have := h.le
    omega
  rw [hsplit, take_add] at hmem
  rcases mem_append.mp hmem with hmem | hmem
  · exact h.empty layer hmem
  · exact hempty layer hmem

theorem nothingHidden (h : IndexOk ss) : NothingHidden ss := by
  intro addr
  have habove : (ss.layers.take (ss.layers.length - ss.maybeNonEmpty)).findSome?
      (·.resolveCache.get? addr) = none := by
    rw [findSome?_eq_none_iff]
    intro layer hmem
    exact size_eq_zero_iff.mp (h.empty layer hmem) addr
  calc (ss.resolveAddress addr).1
      = ss.searched.findSome? (·.resolveCache.get? addr) := resolveLoop_found _
    _ = ss.layers.findSome? (·.resolveCache.get? addr) := by
      conv_rhs => rw [← take_append_drop (ss.layers.length - ss.maybeNonEmpty) ss.layers]
      rw [findSome?_append, habove]
      rfl

section

variable (h : Refines env st ref)
include h

theorem lookupIDinternal_spec (addr : Address) :
    ∃ st', st.lookupIDinternal env addr = (RefTree.lookupResolved env ref.top addr, st') ∧
      Refines env st' ref := by
  obtain ⟨st', hget, hst'⟩ := getActorById_spec h
  refine ⟨st', ?_, hst'⟩
  unfold StateTree.lookupIDinternal lookupResolved
  rw [hget]
  unfold actorAt
  cases ref.top initId <;> rfl

/-- A resolved address is written into the last layer. -/
theorem refines_cache (hi : RefTree.lookupID env ref.top addr = .ok i) :
    Refines env { st with snaps := st.snaps.cacheResolveAddress addr i } ref := by
  refine ⟨?_, ⟨le_refl _, fun layer hmem => ?_⟩⟩
  · obtain ⟨hl, -⟩ := h
    obtain ⟨top, below⟩ := ref
    cases hl with
    | layer hbelow hcache hgrown =>
      let last := { st.snaps.last with
        resolveCache := st.snaps.last.resolveCache.insert addr i }
      exact .layer hbelow (forall_insert hi hcache) hgrown
  · have hzero : (st.snaps.cacheResolveAddress addr i).layers.length -
        (st.snaps.cacheResolveAddress addr i).maybeNonEmpty = 0 := Nat.sub_self _
    rw [hzero] at hmem
    cases hmem

theorem lookupResolved_spec
    (haddr : RefTree.lookupID env ref.top addr = RefTree.lookupResolved env ref.top addr) :
    ∃ st', st.lookupResolved env addr = (RefTree.lookupResolved env ref.top addr, st') ∧
      Refines env st' ref := by
  have hsearch : Refines env { st with snaps := (st.snaps.resolveAddress addr).2 } ref :=
    ⟨h.layered, IndexOk.resolveAddress h.index addr⟩
  have hfound := nothingHidden h.index addr
  unfold StateTree.lookupResolved
  rcases hr : st.snaps.resolveAddress addr with ⟨found, snaps⟩
  rw [hr] at hsearch hfound
  cases found with
  | some resa =>
    obtain ⟨layer, hmem, hi⟩ := exists_of_findSome?_eq_some hfound.symm
    rw [← haddr, h.layered.resolves hmem hi]
    exact ⟨_, rfl, hsearch⟩
  | none =>
    obtain ⟨st', hint, hst'⟩ := lookupIDinternal_spec hsearch addr
    dsimp only
    rw [hint]
    cases hres : lookupResolved env ref.top addr with
    | error e => exact ⟨_, rfl, hst'⟩
    | ok a => exact ⟨_, rfl, refines_cache hst' (haddr.trans hres)⟩

theorem lookupID_spec (addr : Address) :
    ∃ st', st.lookupID env addr = (RefTree.lookupID env ref.top addr, st') ∧
      Refines env st' ref := by
  cases addr with
  | id i => exact ⟨st, rfl, h⟩
  | undef | actor | key => exact lookupResolved_spec h rfl

end

/-! ### `ForEach` -/

/-- The actor that an entry shows. -/
def shown (e : ActorId × StreeOp Act) : Option (ActorId × Act) := e.2.value.map (e.1, ·)

theorem shown_eq_some {e : ActorId × StreeOp Act} {act : Act} :
    shown e = some (i, act) ↔ e = (i, .set act) := by
  obtain ⟨j, op⟩ := e
  cases op <;> simp [shown, StreeOp.value]

theorem keys_filterMap_sublist (es : List (ActorId × StreeOp Act)) :
    ((es.filterMap shown).map Prod.fst).Sublist (es.map Prod.fst) := by
  induction es with
  | nil => exact .slnil
  | cons e es ih =>
    rw [filterMap_cons]
    split
    · exact ih.cons _
    · next x hx =>
      obtain rfl := shown_eq_some.mp hx
      exact ih.cons_cons _

/-- In a map no key comes twice, so what was not seen before the layer is visited. -/
theorem visitEntries_eq {es : List (ActorId × StreeOp Act)} (hnd : (es.map Prod.fst).Nodup)
    (seen : List ActorId) :
    StateTree.visitEntries es seen =
      ((es.filter (·.1 ∉ seen)).filterMap shown,
        ((es.filter (·.1 ∉ seen)).map Prod.fst).reverse ++ seen) := by
  induction es generalizing seen with
  | nil => rfl
  | cons e es ih =>
    obtain ⟨j, op⟩ := e
    obtain ⟨hj, hnd⟩ := nodup_cons.mp hnd
    unfold StateTree.visitEntries
    split
    · next hseen =>
      rw [ih hnd, filter_cons_of_neg (by simpa using hseen)]
    · next hseen =>
      have hfresh : es.filter (·.1 ∉ j :: seen) = es.filter (·.1 ∉ seen) := by
        refine filter_congr fun e he => ?_
        have hne : e.1 ≠ j := fun h => hj (h ▸ mem_map.mpr ⟨e, he, rfl⟩)
        simp [hne]
      rw [ih hnd, hfresh, filter_cons_of_pos (by simpa using hseen), map_cons,
        reverse_cons, append_assoc, filterMap_cons]
      cases op <;> rfl

section

variable (order : Arrangement) {ν : Type} (t : Table ActorId ν)

theorem mem_arrange_pairs (i : ActorId) (v : ν) :
    (i, v) ∈ order.arrange t.pairs ↔ t.get? i = some v :=
  (order.perm t.pairs).mem_iff.trans mem_pairs

theorem arrange_pairs_nodup : ((order.arrange t.pairs).map Prod.fst).Nodup :=
  ((order.perm t.pairs).map Prod.fst).nodup_iff.mpr pairs_keys_nodup

end

theorem visitLayer_spec (order : Arrangement) (seen : List ActorId) :
    ∃ visited seen', StateTree.visitEntries (order.arrange layer.actors.pairs) seen =
        (visited, seen') ∧ (visited.map Prod.fst).Nodup ∧
      (∀ i act, (i, act) ∈ visited ↔ i ∉ seen ∧ layer.actors.get? i = some (.set act)) ∧
      ∀ i, i ∈ seen' ↔ i ∈ seen ∨ layer.actors.get? i ≠ none := by
  have hmem := mem_arrange_pairs order layer.actors
  have hnd := arrange_pairs_nodup order layer.actors
  refine ⟨_, _, visitEntries_eq hnd seen, ?_, fun i act => ?_, fun i => ?_⟩
  · exact (hnd.sublist (filter_sublist.map _)).sublist (keys_filterMap_sublist _)
  · simp only [mem_filterMap, shown_eq_some, exists_eq_right, mem_filter, hmem,
      decide_eq_true_eq]
    exact and_comm
  · simp only [mem_append, mem_reverse, List.mem_map, mem_filter, decide_eq_true_eq]
    constructor
    · rintro (⟨⟨i, op⟩, ⟨he, -⟩, rfl⟩ | hi)
      · exact .inr (by rw [(hmem i op).mp he]; exact some_ne_none _)
      · exact .inl hi
    · rintro (hi | hne)
      · exact .inr hi
      · by_cases hi : i ∈ seen
        · exact .inr hi
        · obtain ⟨op, hop⟩ := ne_none_iff_exists'.mp hne
          exact .inl ⟨(i, op), ⟨(hmem i op).mpr hop, hi⟩, rfl⟩

theorem findOp_cons : StateSnaps.findOp (layer :: layers) i =
      (layer.actors.get? i).or (StateSnaps.findOp layers i) := by
  rw [findOp]
  cases layer.actors.get? i <;> rfl

theorem visitLayers_spec (order : Arrangement) (layers : List (StateSnapLayer Act))
    (seen : List ActorId) :
    ∃ visited seen', StateTree.visitLayers order layers seen = (visited, seen') ∧
      (visited.map Prod.fst).Nodup ∧
      (∀ i act, (i, act) ∈ visited ↔ i ∉ seen ∧ StateSnaps.findOp layers i = some (.set act)) ∧
      ∀ i, i ∈ seen' ↔ i ∈ seen ∨ StateSnaps.findOp layers i ≠ none := by
  induction layers generalizing seen with
  | nil => exact ⟨[], seen, rfl, by simp, by simp [findOp], by simp [findOp]⟩
  | cons layer layers ih =>
    obtain ⟨v, seen₁, hv, hnd, hmem, hseen⟩ := visitLayer_spec order seen
    obtain ⟨v', seen₂, hv', hnd', hmem', hseen'⟩ := ih seen₁
    refine ⟨v ++ v', seen₂, ?_, ?_, fun i act => ?_, fun i => ?_⟩
    · unfold StateTree.visitLayers
      rw [hv]
      dsimp only
      rw [hv']
    · rw [map_append]
      refine Nodup.append hnd hnd' fun i hi hi' => ?_
      obtain ⟨⟨j, act⟩, hj, rfl⟩ := mem_map.mp hi
      obtain ⟨⟨j', act'⟩, hj', rfl⟩ := mem_map.mp hi'
      -- what the layer shows has been seen when the next layers are visited
      refine ((hmem' _ _).mp hj').1 ((hseen _).mpr (.inr ?_))
      rw [((hmem _ _).mp hj).2]
      exact some_ne_none _
    · rw [mem_append, hmem, hmem', hseen, findOp_cons]
      cases layer.actors.get? i with
      | none => simp
      | some op => simp
    · rw [hseen', hseen, findOp_cons]
      cases layer.actors.get? i with
      | none => simp
      | some op => simp

theorem forEach_lists (h : Refines env st ref) : Lists (st.forEach env) ref.top := by
  obtain ⟨v, seen, hv, hnd, hmem, hseen⟩ := visitLayers_spec env.order st.snaps.layers []
  have hroot : ∀ i act, (i, act) ∈ (env.order.arrange st.root.pairs).filter (·.1 ∉ seen) ↔
      findOp st.snaps.layers i = none ∧ st.root.get? i = some act := by
    intro i act
    rw [mem_filter, mem_arrange_pairs, decide_eq_true_eq, hseen]
    simp [and_comm]
  unfold StateTree.forEach
  rw [hv]
  refine ⟨?_, fun i act => ?_⟩
  · rw [map_append]
    refine Nodup.append hnd ?_ fun i hi hi' => ?_
    · exact (arrange_pairs_nodup env.order st.root).sublist (filter_sublist.map _)
    · obtain ⟨⟨j, act⟩, hj, rfl⟩ := mem_map.mp hi
      obtain ⟨⟨j', act'⟩, hj', rfl⟩ := mem_map.mp hi'
      have hsome := ((hmem _ _).mp hj).2
      have hnone := ((hroot _ _).mp hj').1
      rw [hnone] at hsome
      cases hsome
  · rw [mem_append, hmem, hroot, h.layered.apply i]
    cases findOp st.snaps.layers i with
    | none => simp
    | some op => cases op <;> simp [StreeOp.value]

/-! ### The stack -/

theorem refines_snapshot (h : Refines env st ref) :
    Refines env st.snapshot { ref with below := ref.top :: ref.below } := by
  refine ⟨?_, ⟨Nat.le_succ_of_le h.index.le, fun layer hmem => ?_⟩⟩
  · exact h.layered.push
  · have hle := h.index.le
    have hlen : st.snapshot.snaps.layers.length - st.snapshot.snaps.maybeNonEmpty =
        (st.snaps.layers.length - st.snaps.maybeNonEmpty) + 1 := Nat.succ_sub hle
    rw [hlen] at hmem
    rcases mem_cons.mp hmem with rfl | hmem
    · rfl
    · exact h.index.empty layer hmem

theorem take_below_empty (h : IndexOk ss)
    (hmem : layer ∈ ss.below.take (ss.below.length - ss.maybeNonEmpty)) :
    layer.resolveCache.size = 0 := by
  cases hk : ss.below.length - ss.maybeNonEmpty with
  | zero => rw [hk] at hmem; cases hmem
  | succ k =>
    have hempty := h.empty
    have hlen : ss.layers.length - ss.maybeNonEmpty = k + 2 := by
      have : ss.layers.length = ss.below.length + 1 := rfl
      omega
    rw [hk] at hmem
    rw [hlen] at hempty
    exact hempty layer (mem_cons_of_mem _ hmem)

/-- When the last layer is dropped, the layers above the index are among the others. -/
theorem index_drop (h : IndexOk ss)
    (hn : ss'.maybeNonEmpty = StateSnaps.dropIndex ss.maybeNonEmpty ss.below.length)
    (hle : ss.below.length ≤ ss'.layers.length)
    (htake : ∀ layer ∈ ss'.layers.take (ss'.layers.length - ss'.maybeNonEmpty),
      layer.resolveCache.size = 0 ∨
        layer ∈ ss.below.take (ss.below.length - ss.maybeNonEmpty)) : IndexOk ss' := by
  refine ⟨?_, fun layer hmem => ?_⟩
  · rw [hn]
    have := h.le
    have hlen : ss.layers.length = ss.below.length + 1 := rfl
    unfold dropIndex
    split <;> omega
  · rcases htake layer hmem with hzero | hmem
    · exact hzero
    · exact take_below_empty h hmem

theorem refines_revert (h : Refines env st ref) {rest : List (ActorMap Act)}
    (hbelow : ref.below = m :: rest) : Refines env st.revert ⟨m, m :: rest⟩ := by
  refine ⟨?_, index_drop h.index rfl (Nat.le_succ _) fun layer hmem => ?_⟩
  · obtain ⟨hl, -⟩ := h
    obtain ⟨top, below⟩ := ref
    subst hbelow
    cases hl with
    | layer hlayers _ _ =>
      exact hlayers.push
  · have hlen : st.revert.snaps.layers = newStateSnapLayer :: st.snaps.below := rfl
    have hn : st.revert.snaps.maybeNonEmpty =
      dropIndex st.snaps.maybeNonEmpty st.snaps.below.length := rfl
    have hle := h.index.le
    have hlayers : st.snaps.layers.length = st.snaps.below.length + 1 := rfl
    rw [hlen, hn, length_cons] at hmem
    unfold dropIndex at hmem
    split at hmem
    · rw [Nat.add_sub_cancel_left] at hmem
      rcases mem_singleton.mp hmem with rfl
      exact .inl rfl
    · rw [Nat.succ_sub (by omega)] at hmem
      rcases mem_cons.mp hmem with rfl | hmem
      · exact .inl rfl
      · exact .inr hmem

theorem overlay_merge (last next : StateSnapLayer Act) :
    overlay ⟨next.actors.merge last.actors, next.resolveCache.merge last.resolveCache⟩ m =
      overlay last (overlay next m) := by
  funext i
  unfold overlay
  rw [get?_merge]
  cases last.actors.get? i <;> rfl

theorem indexOk_merge (h : IndexOk ss) (hmerge : ss.mergeLastLayer = some ss') : IndexOk ss' := by
  obtain ⟨last, below, n⟩ := ss
  cases below with
  | nil => cases hmerge
  | cons next layers =>
    cases hmerge
    refine index_drop h rfl (le_refl _) fun layer hmem => ?_
    have hle := h.le
    dsimp only [StateSnaps.layers, StateSnaps.dropIndex, length_cons] at hmem hle
    split at hmem
    · rw [Nat.sub_self] at hmem
      cases hmem
    rcases hk : layers.length + 1 - n with _ | k
    · rw [hk] at hmem
      cases hmem
    rw [hk] at hmem
    rcases mem_cons.mp hmem with rfl | hmem
    · -- both merged layers are above the index
      have hempty := h.empty
      dsimp only [StateSnaps.layers, length_cons] at hempty
      rw [show layers.length + 1 + 1 - n = k + 1 + 1 by omega] at hempty
      have hlast := size_eq_zero_iff.mp (hempty last mem_cons_self)
      have hnext := size_eq_zero_iff.mp
        (hempty next (mem_cons_of_mem _ mem_cons_self))
      refine .inl (size_eq_zero_iff.mpr fun addr => ?_)
      rw [get?_merge, hlast, hnext]
      rfl
    · exact .inr (mem_cons_of_mem _ hmem)

/-! ### One operation -/

section

variable (h : Refines env st ref)
include h

theorem setActor_spec {act : Act} (hkeep : KeepsAddresses env ref (.setActor addr act)) :
    ∃ r st', st.setActor env addr act = (r, st') ∧
      Agrees (.ofUnit r) (ref.write (RefTree.setActor env ref.top addr act)).1 ∧
      Refines env st' (ref.write (RefTree.setActor env ref.top addr act)).2 := by
  obtain ⟨st', hlook, hst'⟩ := lookupID_spec h addr
  have hkeep : ∀ m, RefTree.setActor env ref.top addr act = .ok m → Grows env ref.top m := hkeep
  unfold StateTree.setActor
  unfold RefTree.setActor at hkeep ⊢
  rw [hlook]
  cases hid : RefTree.lookupID env ref.top addr with
  | error e => exact ⟨_, _, rfl, .failed _, hst'⟩
  | ok i =>
    rw [hid] at hkeep
    exact ⟨_, _, rfl, .done, refines_putOp hst' (.set act) (hkeep _ rfl)⟩

theorem getActor_spec (addr : Address) :
    ∃ st', st.getActor env addr = (RefTree.getActor env ref.top addr, st') ∧
      Refines env st' ref := by
  unfold StateTree.getActor getActor
  split
  · exact ⟨_, rfl, h⟩
  obtain ⟨st', hlook, hst'⟩ := lookupID_spec h addr
  rw [hlook]
  cases lookupID env ref.top addr with
  | error e => exact ⟨_, rfl, hst'⟩
  | ok i => exact getActorById_spec hst'

theorem deleteActor_spec (hkeep : KeepsAddresses env ref (.deleteActor addr)) :
    ∃ r st', st.deleteActor env addr = (r, st') ∧
      Agrees (.ofUnit r) (ref.write (RefTree.deleteActor env ref.top addr)).1 ∧
      Refines env st' (ref.write (RefTree.deleteActor env ref.top addr)).2 := by
  have hkeep : ∀ m, RefTree.deleteActor env ref.top addr = .ok m → Grows env ref.top m := hkeep
  unfold StateTree.deleteActor
  unfold RefTree.deleteActor at hkeep ⊢
  split
  · exact ⟨_, _, rfl, .failed _, h⟩
  next hundef =>
  rw [if_neg hundef] at hkeep
  obtain ⟨st', hlook, hst'⟩ := lookupID_spec h addr
  rw [hlook]
  cases hid : RefTree.lookupID env ref.top addr with
  | error e => exact ⟨_, _, rfl, .failed _, hst'⟩
  | ok i =>
    obtain ⟨st'', hget, hst''⟩ := getActor_spec hst' (.id i)
    have hat : RefTree.getActor env ref.top (.id i) = RefTree.actorAt ref.top i := rfl
    rw [hid] at hkeep
    dsimp only at hkeep ⊢
    rw [hget, hat]
    cases hact : RefTree.actorAt ref.top i with
    | error e => exact ⟨_, _, rfl, .failed _, hst''⟩
    | ok act =>
      rw [hact] at hkeep
      exact ⟨_, _, rfl, .done, refines_putOp hst'' .delete (hkeep _ rfl)⟩

theorem clearSnapshot_spec : (st.clearSnapshot = none ∧ refStep env ref .clearSnapshot = none) ∨
      ∃ st' ref', st.clearSnapshot = some st' ∧
        refStep env ref .clearSnapshot = some (.done, ref') ∧ Refines env st' ref' := by
  obtain ⟨hl, hindex⟩ := h
  obtain ⟨top, below⟩ := ref
  obtain ⟨root, last, layers, n⟩ := st
  dsimp only [StateSnaps.layers] at hl
  cases hl with
  | layer hnext hcache hgrow =>
    cases hnext with
    | base => exact .inl ⟨rfl, rfl⟩
    | @layer next layers m ms hlayers hcache' hgrow' =>
      refine .inr ⟨_, _, rfl, rfl, ?_, indexOk_merge hindex rfl⟩
      rw [← overlay_merge] at hcache hgrow ⊢
      refine .layer hlayers (fun addr i hi => ?_) (hgrow'.trans hgrow)
      rw [get?_merge] at hi
      cases hlast : last.resolveCache.get? addr with
      | some j =>
        rw [hlast] at hi
        cases hi
        exact hcache addr i hlast
      | none =>
        rw [hlast] at hi
        exact hgrow addr i (hcache' addr i hi)

/-- Both lack the layer that the operation needs, or both return the same. -/
theorem step_agrees {op : TreeOp Act} (hkeep : KeepsAddresses env ref op) :
    (treeStep env st op = none ∧ refStep env ref op = none) ∨
      ∃ r st' r' ref', treeStep env st op = some (r, st') ∧ refStep env ref op = some (r', ref') ∧
        Agrees r r' ∧ Refines env st' ref' := by
  cases op with
  | setActor addr act =>
    obtain ⟨r, st', hset, hagree, hst'⟩ := setActor_spec h hkeep
    exact .inr ⟨_, _, _, _, by simp only [treeStep, hset], rfl, hagree, hst'⟩
  | getActor addr =>
    obtain ⟨st', hget, hst'⟩ := getActor_spec h addr
    refine .inr ⟨.ofActor (getActor env ref.top addr), st', _, _,
      by simp only [treeStep, hget], rfl, ?_, hst'⟩
    cases getActor env ref.top addr with
    | error e => exact .failed e
    | ok act => exact .actor act
  | deleteActor addr =>
    obtain ⟨r, st', hdel, hagree, hst'⟩ := deleteActor_spec h hkeep
    exact .inr ⟨_, _, _, _, by simp only [treeStep, hdel], rfl, hagree, hst'⟩
  | lookupID addr =>
    obtain ⟨st', hlook, hst'⟩ := lookupID_spec h addr
    refine .inr ⟨.ofId (lookupID env ref.top addr), st', _, _,
      by simp only [treeStep, hlook], rfl, ?_, hst'⟩
    cases lookupID env ref.top addr with
    | error e => exact .failed e
    | ok i => exact .id i
  | forEach => exact .inr ⟨_, _, _, _, rfl, rfl, .all (forEach_lists h), h⟩
  | snapshot => exact .inr ⟨_, _, _, _, rfl, rfl, .done, refines_snapshot h⟩
  | clearSnapshot =>
    rcases clearSnapshot_spec h with ⟨hst, href⟩ | ⟨st', ref', hst, href, hst'⟩
    · exact .inl ⟨by simp only [treeStep, hst, map_none], href⟩
    · exact .inr ⟨_, _, _, _, by simp only [treeStep, hst, map_some], href, .done, hst'⟩
  | revert =>
    obtain ⟨top, below⟩ := ref
    cases below with
    | nil => exact nomatch h.layered
    | cons m rest => exact .inr ⟨_, _, _, _, rfl, rfl, .done, refines_revert h rfl⟩

/-! ### Runs -/

theorem run_agrees (hkeep : Guarded (refNext env) (KeepsAddresses env) ref ops) :
    RunAgrees (Refines env) (treeRun env st ops) (refRun env ref ops) := by
  induction ops generalizing st ref with
  | nil => exact .ran .nil h
  | cons op ops ih =>
    unfold treeRun refRun
    rcases step_agrees h hkeep.1 with ⟨ht, hr⟩ | ⟨r, st', r', ref', ht, hr, hagree, hst'⟩
    · rw [ht, hr]
      exact .stuck
    · rw [ht, hr]
      have hrest := ih hst' (hkeep.2 ref' (by rw [refNext, hr]; rfl))
      dsimp only
      generalize treeRun env st' ops = run at hrest ⊢
      generalize refRun env ref' ops = run' at hrest ⊢
      cases hrest with
      | stuck => exact .stuck
      | ran hall hlast => exact .ran (.cons hagree hall) hlast

end

/-- The view that a revert goes back to. -/
theorem nothingSurvives (h : Refines env st ref) : NothingSurvives st := by
  obtain ⟨top, below⟩ := ref
  cases below with
  | nil => exact nomatch h.layered
  | cons m rest =>
    have hindex := (refines_revert h rfl).index
    exact ⟨fun i => rfl, fun addr => nothingHidden hindex addr⟩

/-! ### Saving -/

/-- Either the deleted actors are in the saved tree, and all entries are written, or the loop
fails. -/
theorem writeEntries_cases {l : List (ActorId × StreeOp Act)} (hnd : (l.map Prod.fst).Nodup) :
    (∃ root', StateTree.writeEntries l root = .ok root' ∧
      (∀ i, (i, .delete) ∈ l → root.get? i ≠ none) ∧
      (∀ i op, (i, op) ∈ l → root'.get? i = op.value) ∧
      ∀ i, i ∉ l.map Prod.fst → root'.get? i = root.get? i) ∨
    ∃ e i, StateTree.writeEntries l root = .error e ∧ (i, .delete) ∈ l ∧ root.get? i = none := by
  induction l generalizing root with
  | nil =>
    exact .inl ⟨root, rfl, fun _ h => (nomatch h), fun _ _ h => (nomatch h), fun _ _ => rfl⟩
  | cons e l ih =>
    obtain ⟨j, op⟩ := e
    obtain ⟨hj, hnd⟩ := nodup_cons.mp hnd
    by_cases hnone : op = .delete ∧ root.get? j = none
    · obtain ⟨rfl, hnone⟩ := hnone
      exact .inr ⟨.notFound j, j, by rw [StateTree.writeEntries, hnone], mem_cons_self, hnone⟩
    obtain ⟨root₁, hwrite, hget⟩ : ∃ root₁, StateTree.writeEntries ((j, op) :: l) root =
        StateTree.writeEntries l root₁ ∧
          ∀ i, root₁.get? i = if i = j then op.value else root.get? i := by
      cases op with
      | set act => exact ⟨_, rfl, get?_insert⟩
      | delete =>
        obtain ⟨act, hact⟩ := ne_none_iff_exists'.mp fun h => hnone ⟨rfl, h⟩
        exact ⟨_, by rw [StateTree.writeEntries, hact], get?_erase⟩
    have hother : ∀ i op', (i, op') ∈ l → root₁.get? i = root.get? i := by
      intro i op' hi
      have hne : i ≠ j := fun hij => hj (hij ▸ mem_map.mpr ⟨_, hi, rfl⟩)
      rw [hget, if_neg hne]
    rw [hwrite]
    rcases ih hnd with ⟨root', hok, hsaved, hin, hout⟩ | ⟨e, i, hfail, hi, hlost⟩
    · refine .inl ⟨root', hok, fun i hi => ?_, fun i op' hi => ?_, fun i hi => ?_⟩
      · rcases mem_cons.mp hi with heq | hi
        · cases heq
          exact fun h => hnone ⟨rfl, h⟩
        · exact hother i _ hi ▸ hsaved i hi
      · rcases mem_cons.mp hi with heq | hi
        · cases heq
          rw [hout j hj, hget, if_pos rfl]
        · exact hin i op' hi
      · rw [map_cons, mem_cons, not_or] at hi
        rw [hout i hi.2, hget, if_neg hi.1]
    · exact .inr ⟨e, i, hfail, mem_cons_of_mem _ hi, hother i _ hi ▸ hlost⟩

theorem getActorById_eq (hone : st.snaps.below = []) :
    (st.getActorById i).1 = RefTree.actorAt (overlay st.snaps.last st.root.get?) i := by
  unfold StateTree.getActorById actorAt layers overlay
  rw [hone, findOp_cons]
  cases st.snaps.last.actors.get? i with
  | none => cases st.root.get? i <;> rfl
  | some op => cases op <;> rfl

/-! ### The saved tree stays -/

theorem getActorById_root : (st.getActorById i).2.root = st.root := by
  unfold StateTree.getActorById
  split
  · rfl
  · rfl
  · split <;> rfl

theorem lookupID_root {addr : Address} : (st.lookupID env addr).2.root = st.root := by
  unfold StateTree.lookupID StateTree.lookupResolved StateTree.lookupIDinternal
  grind [getActorById_root]

theorem treeStep_root {op : TreeOp Act} {r : TreeResult Act (List (ActorId × Act))}
    (h : treeStep env st op = some (r, st')) : st'.root = st.root := by
  cases op with
  | clearSnapshot =>
    simp only [treeStep, StateTree.clearSnapshot, map_eq_some_iff] at h
    obtain ⟨_, ⟨_, -, rfl⟩, heq⟩ := h
    cases heq
    rfl
  | _ =>
    grind [treeStep, StateTree.setActor, StateTree.getActor, StateTree.deleteActor,
      StateTree.snapshot, StateTree.revert, lookupID_root, getActorById_root]

theorem treeRun_root {rs : List (TreeResult Act (List (ActorId × Act)))}
    (h : treeRun env st ops = some (rs, st')) : st'.root = st.root := by
  induction ops generalizing st rs with
  | nil => cases h; rfl
  | cons op ops ih =>
    unfold treeRun at h
    split at h
    · cases h
    next r st₁ hstep =>
    obtain ⟨⟨rs₁, st₂⟩, hrun, heq⟩ := map_eq_some_iff.mp h
    cases heq
    exact (ih hrun).trans (treeStep_root hstep)

end RefinementLemmas

open RefinementLemmas in
/-- Whatever the layers cache, a run of operations on a loaded tree returns what the
stack of maps returns, as long as the address table only grows within a branch. After it
every resolved address of a layer is found, and a revert would leave none of the last
layer's entries. -/
theorem stateTree_refines (env : TreeEnv Act) (root : Table ActorId Act) (ops : List (TreeOp Act))
    (hkeep : Guarded (refNext env) (KeepsAddresses env) (loadRefTree root) ops) :
    RunAgrees (fun st _ => NothingHidden st.snaps ∧ NothingSurvives st)
      (treeRun env (loadStateTree root) ops) (refRun env (loadRefTree root) ops) := by
  have hload : Refines env (loadStateTree root) (loadRefTree root) :=
    ⟨Layered.base.push, le_refl _, fun _ hmem => nomatch hmem⟩
  have hrun := run_agrees hload hkeep
  generalize treeRun env (loadStateTree root) ops = run at hrun ⊢
  generalize refRun env (loadRefTree root) ops = run' at hrun ⊢
  cases hrun with
  | stuck => exact .stuck
  | ran hall hlast => exact .ran hall ⟨nothingHidden hlast.index, nothingSurvives hlast⟩

open RefinementLemmas in
/-- For every sequence of calls on a loaded tree that ends with one layer: the tree is saved, and
what is loaded then shows the same actors, exactly if the actors that the layer deletes were in
the tree that was loaded. -/
theorem flush_shows_iff (env : TreeEnv Act) (root : Table ActorId Act) {ops : List (TreeOp Act)}
    {rs : List (TreeResult Act (List (ActorId × Act)))}
    (hrun : treeRun env (loadStateTree root) ops = some (rs, st)) (hone : st.snaps.below = []) :
    (∃ saved, st.flush env = .ok saved ∧
      ∀ i, ((loadStateTree saved).getActorById i).1 = (st.getActorById i).1) ↔
    ∀ i, st.snaps.last.actors.get? i = some .delete → root.get? i ≠ none := by
  obtain rfl : st.root = root := treeRun_root hrun
  have hmem := mem_arrange_pairs env.order st.snaps.last.actors
  have hflush : st.flush env =
      StateTree.writeEntries (env.order.arrange st.snaps.last.actors.pairs) st.root := by
    rw [StateTree.flush, hone]
  rw [hflush]
  rcases @writeEntries_cases _ st.root _ (arrange_pairs_nodup env.order st.snaps.last.actors)
    with ⟨saved, hok, hsaved, hin, hout⟩ | ⟨e, i, hfail, hi, hlost⟩
  · have hshown : saved.get? = overlay st.snaps.last st.root.get? := by
      funext i
      unfold overlay
      cases hop : st.snaps.last.actors.get? i with
      | some op => exact hin i op ((hmem i op).mpr hop)
      | none =>
        refine hout i fun hi => ?_
        obtain ⟨⟨_, op⟩, he, rfl⟩ := mem_map.mp hi
        cases hop.symm.trans ((hmem _ op).mp he)
    refine iff_of_true ⟨saved, hok, fun i => ?_⟩ fun i hi => hsaved i ((hmem i _).mpr hi)
    rw [getActorById_eq rfl, getActorById_eq hone, ← hshown]
    rfl
  · refine iff_of_false ?_ fun h => h i ((hmem i _).mp hi) hlost
    rintro ⟨saved, hok, -⟩
    cases hfail.symm.trans hok

/-! ### A run -/

/-- Init actors are numbers: the payloads below the number are in the address table. -/
def countingEnv : TreeEnv Nat where
  resolveAddress init addr :=
    match addr with
    | .actor k => if k < init then .found (100 + k) else .notFound
    | _ => .notFound
  order := Arrangement.listed

theorem countingEnv_grows {m m' : ActorMap Nat} (n n' : Nat) (h : m initId = some n)
    (h' : m' initId = some n') (hle : n ≤ n') : Grows countingEnv m m' := by
  intro addr i hi
  cases addr with
  | id j => exact hi
  | undef | key => simp [RefTree.lookupID, RefTree.lookupResolved, h, resolveIn, countingEnv] at hi
  | actor k =>
    have hk : k < n ∧ 100 + k = i := by
      simp only [RefTree.lookupID, RefTree.lookupResolved, h, resolveIn, countingEnv] at hi
      split_ifs at hi with hlt
      exact ⟨hlt, Except.ok.inj hi⟩
    simp only [RefTree.lookupID, RefTree.lookupResolved, h', resolveIn, countingEnv,
      if_pos (hk.1.trans_le hle), hk.2]

/-- A payload that the init actor knows within a snapshot only is resolved there, and not
after the revert. -/
theorem stateTree_refines_reverted :
    let root : Table ActorId Nat := (∅ : Table ActorId Nat).insert initId 1
    let ops : List (TreeOp Nat) := [.lookupID (.actor 0), .snapshot, .setActor (.id initId) 5,
      .lookupID (.actor 3), .revert, .lookupID (.actor 3), .lookupID (.actor 0)]
    (∃ st, treeRun countingEnv (loadStateTree root) ops = some ([.id 100, .done, .done, .id 103,
      .done, .failed (.resolve (.actor 3) .actorNotFound), .id 100], st)) ∧
    RunAgrees (fun st _ => NothingHidden st.snaps ∧ NothingSurvives st)
      (treeRun countingEnv (loadStateTree root) ops)
      (refRun countingEnv (loadRefTree root) ops) := by
  refine ⟨⟨_, rfl⟩, stateTree_refines countingEnv _ _ ?_⟩
  refine ⟨trivial, fun s hs => ?_⟩
  cases hs
  refine ⟨trivial, fun s hs => ?_⟩
  cases hs
  refine ⟨fun m hm => ?_, fun s hs => ?_⟩
  · cases hm
    exact countingEnv_grows 1 5 rfl rfl (by decide)
  cases hs
  refine ⟨trivial, fun s hs => ?_⟩
  cases hs
  refine ⟨trivial, fun s hs => ?_⟩
  cases hs
  refine ⟨trivial, fun s hs => ?_⟩
  cases hs
  exact ⟨trivial, fun s hs => trivial⟩

theorem flush_shows_iff_deleted : ∃ rs st,
    treeRun countingEnv (loadStateTree ((∅ : Table ActorId Nat).insert 5 7))
      [.deleteActor (.id 5)] = some (rs, st) ∧ ∃ root, st.flush countingEnv = .ok root ∧
        ∀ i, ((loadStateTree root).getActorById i).1 = (st.getActorById i).1 := by
  have hrun : treeRun countingEnv (loadStateTree ((∅ : Table ActorId Nat).insert 5 7))
      [.deleteActor (.id 5)] = some (_, _) := rfl
  refine ⟨_, _, hrun, (flush_shows_iff countingEnv _ hrun rfl).mpr fun i hi => ?_⟩
  rcases Table.get?_insert_cases hi with ⟨rfl, -⟩ | ⟨hne, hi⟩
  · nofun
  · rcases Table.get?_insert_cases hi with ⟨rfl, -⟩ | ⟨-, hi⟩
    · exact absurd rfl hne
    · cases hi

/-- An actor that is not saved yet is set and deleted. -/
theorem flush_fails : ∃ rs st,
    treeRun countingEnv (loadStateTree ∅) [.setActor (.id 5) 7, .deleteActor (.id 5)] =
      some (rs, st) ∧ st.snaps.below = [] ∧ st.flush countingEnv = .error (.notFound 5) :=
  ⟨_, _, rfl, rfl, rfl⟩

end OpenDsn.State
