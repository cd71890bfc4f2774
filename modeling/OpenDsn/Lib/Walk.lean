import Mathlib.Data.List.Nodup
import Mathlib.Data.List.Perm.Subperm

/-!
# Following pointers with a visited set

Each node has at most one successor, `next : α → Except ε (Option α)`: an
error, an end, or the next node. `follow` is the usual loop with a visited set.
`Chain next x l` states, without a loop, that the pointers from `x` run through
`l` and end.

* `follow_ok_iff`: the loop succeeds exactly on chains;
* `follow_ne_none`: it always returns when only listed nodes have a successor;
* `Repoint`: one pointer is set; `Repoint.allChains_iff` and
  `Repoint.chain_iff` say when every node keeps a chain;
* `Line`: a list linked both ways.
-/

namespace OpenDsn.Lib

open List Option

variable {α ε : Type}

/-- The loop. `visited` has the newest node first and is the result at an end
node; `none` means that the fuel ran out. -/
def follow [DecidableEq α] (next : α → Except ε (Option α)) (cycle : α → ε) :
    Nat → List α → α → Option (Except ε (List α))
  | 0, _, _ => none
  | fuel + 1, visited, x =>
      if x ∈ visited then some (.error (cycle x))
      else
        match next x with
        | .error e => some (.error e)
        | .ok none => some (.ok (x :: visited))
        | .ok (some y) => follow next cycle fuel (x :: visited) y

/-- The pointers from `x` run through exactly `l` and end. -/
inductive Chain (next : α → Except ε (Option α)) : α → List α → Prop
  | last {x : α} : next x = .ok none → Chain next x [x]
  | link {x y : α} {l : List α} : next x = .ok (some y) → Chain next y l → Chain next x (x :: l)

/-- `y` is `x` or is reached from it by following pointers. -/
def LeadsTo (next : α → Except ε (Option α)) : α → α → Prop :=
  Relation.ReflTransGen fun x y => next x = .ok (some y)

/-- `next'` is `next` with the pointer of `c` set to `o`. -/
structure Repoint (next : α → Except ε (Option α)) (c : α) (o : Option α)
    (next' : α → Except ε (Option α)) : Prop where
  self : next' c = .ok o
  other : ∀ x, x ≠ c → next' x = next x

variable {next next' : α → Except ε (Option α)} {x y c p : α} {o : Option α} {l visited : List α}
  {fuel : Nat}

namespace Chain

theorem head_eq (h : Chain next x (y :: l)) : x = y := by
  cases h <;> rfl

section

variable (h : Chain next x l)
include h

theorem head_mem : x ∈ l := by
  cases h <;> exact mem_cons_self

theorem unique {l' : List α} (h' : Chain next x l') : l = l' := by
  induction h generalizing l' with
  | last hx =>
    cases h' with
    | last => rfl
    | link hx' => rw [hx] at hx'; cases hx'
  | link hx _ ih =>
    cases h' with
    | last hx' => rw [hx] at hx'; cases hx'
    | link hx' ht =>
      rw [hx] at hx'
      cases hx'
      rw [ih ht]

/-- From any of its nodes on, a chain is the chain of that node. -/
theorem split (hy : y ∈ l) : ∃ a b, l = a ++ y :: b ∧ Chain next y (y :: b) := by
  induction h with
  | last hx =>
    obtain rfl := mem_singleton.mp hy
    exact ⟨[], [], rfl, .last hx⟩
  | @link x z l hx ht ih =>
    rcases mem_cons.mp hy with rfl | hy
    · exact ⟨[], l, rfl, .link hx ht⟩
    · obtain ⟨a, b, rfl, hb⟩ := ih hy
      exact ⟨x :: a, b, rfl, hb⟩

/-- A node that came back would have two chains of different lengths. -/
theorem nodup : l.Nodup := by
  induction h with
  | last => exact nodup_singleton _
  | @link x y l hx ht ih =>
    refine nodup_cons.mpr ⟨fun hmem => ?_, ih⟩
    obtain ⟨a, b, hl, hb⟩ := ht.split hmem
    have hlen : (x :: l).length = (x :: b).length := by rw [(Chain.link hx ht).unique hb]
    rw [hl] at hlen
    simp only [length_cons, length_append] at hlen
    omega

theorem next_ok (hy : y ∈ l) : ∃ o, next y = .ok o := by
  obtain ⟨_, _, _, hb⟩ := h.split hy
  cases hb with
  | last hx => exact ⟨_, hx⟩
  | link hx => exact ⟨_, hx⟩

/-- The nodes of a chain are the ones its first node leads to. -/
theorem mem_iff_leadsTo : y ∈ l ↔ LeadsTo next x y := by
  constructor
  · intro hy
    induction h with
    | last => rw [mem_singleton.mp hy]; exact .refl
    | @link x z l hx _ ih =>
      rcases mem_cons.mp hy with rfl | hy
      · exact .refl
      · exact .head hx (ih hy)
  · intro hlead
    induction hlead with
    | refl => exact h.head_mem
    | tail _ hstep ih =>
      obtain ⟨a, b, rfl, hb⟩ := h.split ih
      cases hb with
      | last hx => rw [hx] at hstep; cases hstep
      | link hx ht =>
        rw [hx] at hstep
        cases hstep
        exact mem_append_right _ (mem_cons_of_mem _ ht.head_mem)

theorem congr (heq : ∀ y ∈ l, next' y = next y) : Chain next' x l := by
  induction h with
  | @last x hx => exact .last ((heq x mem_cons_self).trans hx)
  | @link x z l hx _ ih =>
    exact .link ((heq x mem_cons_self).trans hx)
      (ih fun y hy => heq y (mem_cons_of_mem _ hy))

/-- A chain that avoids the repointed node stays. -/
theorem repoint (hr : Repoint next c o next') (hc : c ∉ l) : Chain next' x l :=
  h.congr fun y hy => hr.other y fun hyc => hc (hyc ▸ hy)

end

/-- Pointers that agree before `c` lead through the same nodes to `c`. -/
theorem graft {a b m : List α} (h : Chain next x (a ++ c :: b))
    (heq : ∀ y ∈ a, next' y = next y) (hm : Chain next' c m) : Chain next' x (a ++ m) := by
  induction a generalizing x with
  | nil => rwa [h.head_eq]
  | cons y a ih =>
    rw [cons_append] at h
    obtain rfl := h.head_eq
    generalize hl : a ++ c :: b = l at h
    cases h with
    | last => exact absurd hl (by simp)
    | link hx ht =>
      exact .link ((heq x mem_cons_self).trans hx)
        (ih (hl ▸ ht) fun y hy => heq y (mem_cons_of_mem _ hy))

/-- A chain through the repointed node goes on with that node's new chain. -/
theorem reroute {a b m : List α} (h : Chain next x (a ++ c :: b))
    (hr : Repoint next c o next') (hm : Chain next' c m) : Chain next' x (a ++ m) := by
  refine h.graft (fun y hy => hr.other y ?_) hm
  rintro rfl
  exact (nodup_append.mp h.nodup).2.2 y hy y mem_cons_self rfl

section

variable (h : Chain next x l)
include h

theorem eq_append_of_end (hp : p ∈ l) (hend : next p = .ok none) : ∃ a, l = a ++ [p] := by
  obtain ⟨a, b, rfl, hb⟩ := h.split hp
  cases hb with
  | last => exact ⟨a, rfl⟩
  | link hx => rw [hend] at hx; cases hx

theorem exists_end : ∃ a r, l = a ++ [r] ∧ next r = .ok none := by
  induction h with
  | @last x hx => exact ⟨[], x, rfl, hx⟩
  | @link x y l hx _ ih =>
    obtain ⟨a, r, rfl, hr⟩ := ih
    exact ⟨x :: a, r, rfl, hr⟩

theorem head?_eq : l.head? = some x := by
  cases h <;> rfl

end

/-- From anywhere in a chain that was written backwards it ends at the first
node written. -/
theorem of_mem_reverse {root t : α} (h : Chain next x l.reverse)
    (hroot : l.head? = some root) (ht : t ∈ l) : ∃ a, Chain next t (a ++ [root]) := by
  obtain ⟨a, b, hab, hb⟩ := h.split (mem_reverse.mpr ht)
  obtain ⟨init, r, hinit, -⟩ := hb.exists_end
  have hlast : l.reverse.getLast? = some r := by rw [hab, hinit]; simp
  rw [getLast?_reverse, hroot] at hlast
  cases hlast
  exact ⟨init, hinit ▸ hb⟩

end Chain

/-- Every node without an error has a chain. -/
def AllChains (next : α → Except ε (Option α)) : Prop :=
  ∀ x o, next x = .ok o → ∃ l, Chain next x l

/-- Setting one pointer keeps all chains exactly when its own node has one. -/
theorem Repoint.allChains_iff (hr : Repoint next c o next')
    (hall : AllChains next) : AllChains next' ↔ ∃ m, Chain next' c m := by
  constructor
  · intro hall'
    exact hall' c o hr.self
  · rintro ⟨m, hm⟩ x ox hx
    by_cases hxc : x = c
    · exact ⟨m, hxc ▸ hm⟩
    · obtain ⟨l, hl⟩ := hall x ox ((hr.other x hxc).symm.trans hx)
      by_cases hc : c ∈ l
      · obtain ⟨a, b, rfl, -⟩ := hl.split hc
        exact ⟨_, hl.reroute hr hm⟩
      · exact ⟨l, hl.repoint hr hc⟩

/-- Pointing `c` at `p` gives `c` a chain exactly when `p` did not lead to `c`. -/
theorem Repoint.chain_iff (hr : Repoint next c (some p) next')
    (hp : Chain next p l) : (∃ m, Chain next' c m) ↔ ¬ LeadsTo next p c := by
  rw [← hp.mem_iff_leadsTo]
  constructor
  · rintro ⟨m, hm⟩ hc
    -- `c` leads back to itself through `p`, so its chain contains `c` twice.
    obtain ⟨a, b, rfl, -⟩ := hp.split hc
    have hloop := (Chain.link hr.self (hp.reroute hr hm)).unique hm
    have hlen : (c :: (a ++ m)).length = m.length := by rw [hloop]
    simp only [length_cons, length_append] at hlen
    omega
  · intro hc
    exact ⟨c :: l, .link hr.self (hp.repoint hr hc)⟩

/-! ## Opposite pointers -/

/-- A list linked both ways: `next` runs through `l` from `root`, `prev` runs
back from `tip`. -/
structure Line (prev next : α → Except ε (Option α)) (root tip : α) (l : List α) : Prop where
  fwd : Chain next root l
  back : Chain prev tip l.reverse

namespace Line

variable {prev prev' : α → Except ε (Option α)} {root tip : α}

/-- Following `prev` from anywhere in a line ends at its root. -/
theorem back_of_mem (h : Line prev next root tip l) {t : α} (ht : t ∈ l) :
    ∃ a, Chain prev t (a ++ [root]) :=
  h.back.of_mem_reverse h.fwd.head?_eq ht

theorem tip_of_end (h : Line prev next root tip l) (hp : p ∈ l) (hend : next p = .ok none) :
    p = tip ∧ ∃ a, l = a ++ [p] := by
  obtain ⟨a, rfl⟩ := h.fwd.eq_append_of_end hp hend
  have hback := h.back
  rw [reverse_append] at hback
  exact ⟨hback.head_eq.symm, a, rfl⟩

/-- A line stays where neither of its pointers changes. -/
theorem congr (h : Line prev next root tip l) (hprev : ∀ y ∈ l, prev' y = prev y)
    (hnext : ∀ y ∈ l, next' y = next y) : Line prev' next' root tip l :=
  ⟨h.fwd.congr hnext, h.back.congr fun y hy => hprev y (mem_reverse.mp hy)⟩

/-- Linking a new node both ways after the tip makes it the new tip. -/
theorem snoc (h : Line prev next root p l) (hp : p ∈ l) (hend : next p = .ok none)
    (hprev : ∀ y ∈ l, prev' y = prev y) (hnext : ∀ y ∈ l, y ≠ p → next' y = next y)
    (hc : prev' c = .ok (some p)) (hpc : next' p = .ok (some c)) (hcn : next' c = .ok none) :
    Line prev' next' root c (l ++ [c]) := by
  obtain ⟨-, a, rfl⟩ := h.tip_of_end hp hend
  have hnd := h.fwd.nodup
  constructor
  · rw [append_assoc]
    refine h.fwd.graft (fun y hy => ?_) (.link hpc (.last hcn))
    refine hnext y (mem_append_left _ hy) ?_
    rintro rfl
    exact (nodup_append.mp hnd).2.2 y hy y mem_cons_self rfl
  · rw [reverse_append]
    exact .link hc (h.back.congr fun y hy => hprev y (mem_reverse.mp hy))

end Line

section Follow

variable [DecidableEq α] {cycle : α → ε}

theorem follow_of_chain (h : Chain next x l) (hv : ∀ y ∈ l, y ∉ visited) (hfuel : l.length ≤ fuel) :
    follow next cycle fuel visited x = some (.ok (l.reverse ++ visited)) := by
  induction h generalizing visited fuel with
  | @last x hx =>
    cases fuel with
    | zero => cases hfuel
    | succ fuel => simp [follow, hx, hv x mem_cons_self]
  | @link x z l hx ht ih =>
    cases fuel with
    | zero => cases hfuel
    | succ fuel =>
      have hnd := (Chain.link hx ht).nodup
      have hv' : ∀ y ∈ l, y ∉ x :: visited := by
        intro y hy hmem
        rcases mem_cons.mp hmem with rfl | hmem
        · exact (nodup_cons.mp hnd).1 hy
        · exact hv y (mem_cons_of_mem _ hy) hmem
      have hstep := ih hv' (Nat.le_of_succ_le_succ hfuel)
      simp [follow, hx, hv x mem_cons_self, hstep]

theorem chain_of_follow {r : List α} (h : follow next cycle fuel visited x = some (.ok r)) :
    ∃ l, Chain next x l ∧ r = l.reverse ++ visited := by
  induction fuel generalizing x visited with
  | zero => cases h
  | succ fuel ih =>
    unfold follow at h
    split at h
    · cases h
    split at h
    · cases h
    · next hx => cases h; exact ⟨[x], .last hx, rfl⟩
    · next y hx =>
      obtain ⟨l, hl, rfl⟩ := ih h
      exact ⟨x :: l, .link hx hl, by simp⟩

/-- The loop returns: nodes without an error are in `dom`, and each round but
the last moves one of them to `visited`. -/
theorem follow_ne_none {dom : List α} (hdom : ∀ y o, next y = .ok o → y ∈ dom) (hnd : visited.Nodup)
    (hsub : visited ⊆ dom)
    (hfuel : dom.length < fuel + visited.length) :
    follow next cycle fuel visited x ≠ none := by
  induction fuel generalizing x visited with
  | zero =>
    have hle := (hnd.subperm hsub).length_le
    omega
  | succ fuel ih =>
    unfold follow
    split
    · exact some_ne_none _
    · next hx =>
      split
      · exact some_ne_none _
      · exact some_ne_none _
      · next y hy =>
        refine ih (nodup_cons.mpr ⟨hx, hnd⟩)
          (cons_subset.mpr ⟨hdom x _ hy, hsub⟩) ?_
        simp only [length_cons]
        omega

/-- With one round per node and one more, the loop succeeds exactly on chains. -/
theorem follow_ok_iff {dom : List α} (hdom : ∀ y o, next y = .ok o → y ∈ dom)
    {r : List α} : follow next cycle (dom.length + 1) [] x = some (.ok r) ↔
      ∃ l, Chain next x l ∧ r = l.reverse := by
  constructor
  · intro h
    obtain ⟨l, hl, rfl⟩ := chain_of_follow h
    exact ⟨l, hl, by simp⟩
  · rintro ⟨l, hl, rfl⟩
    have hsub : l ⊆ dom := fun y hy => (hl.next_ok hy).elim fun o ho => hdom y o ho
    have hle : l.length ≤ dom.length := (hl.nodup.subperm hsub).length_le
    rw [follow_of_chain hl (fun _ _ => not_mem_nil) (by omega), append_nil]

end Follow

end OpenDsn.Lib
