import Mathlib.Data.List.Nodup
import Mathlib.Data.List.Perm.Subperm
import OpenDsn.Lib.Slots

/-!
# Depth-first walks that carry data

A walk visits entries `(key, data)`; each entry gives the entries to visit
after it, and an entry whose key was visited before is skipped. The result
lists the visited entries in order.

* `dfs_rule`: an invariant of the visited list that every visit keeps holds at
  the end;
* `dfs_closed`: with one unit of fuel per key and one more, everything below a
  visited entry has been visited;
* `dfs_fuel`: then more fuel changes nothing.
-/

namespace OpenDsn.Lib

open List

variable {κ β : Type} {next : κ × β → List (κ × β)} {Q : κ × β → Prop}

def keys (done : List (κ × β)) : List κ := done.map Prod.fst

@[simp] theorem keys_append (a b : List (κ × β)) : keys (a ++ b) = keys a ++ keys b :=
  map_append

theorem nodup_keys_snoc {done : List (κ × β)} {e : κ × β} (hnd : (keys done).Nodup)
    (hfresh : e.1 ∉ keys done) : (keys (done ++ [e])).Nodup := by
  rw [keys_append]
  refine nodup_append.mpr ⟨hnd, nodup_singleton _, fun x hx y hy hxy => ?_⟩
  rw [mem_singleton.mp hy] at hxy
  exact hfresh (hxy ▸ hx)

/-- `b` continues `a`, and everything below a new entry is in `b`. -/
def Continues (next : κ × β → List (κ × β)) (a b : List (κ × β)) : Prop :=
  ∃ t, b = a ++ t ∧ ∀ e ∈ t, ∀ c ∈ next e, c.1 ∈ keys b

theorem Continues.refl (a : List (κ × β)) : Continues next a a := ⟨[], by simp, by simp⟩

theorem Continues.trans {a b c : List (κ × β)} (hab : Continues next a b)
    (hbc : Continues next b c) : Continues next a c := by
  obtain ⟨t, rfl, ht⟩ := hab
  obtain ⟨u, rfl, hu⟩ := hbc
  refine ⟨t ++ u, append_assoc _ _ _, fun e he d hd => ?_⟩
  rcases mem_append.mp he with he | he
  · rw [keys_append]
    exact mem_append_left _ (ht e he d hd)
  · exact hu e he d hd

theorem Continues.keys_subset {a b : List (κ × β)} (h : Continues next a b) : keys a ⊆ keys b := by
  obtain ⟨t, rfl, -⟩ := h
  rw [keys_append]
  exact subset_append_left _ _

theorem Continues.length_le {a b : List (κ × β)} (h : Continues next a b) :
    a.length ≤ b.length := by
  obtain ⟨t, rfl, -⟩ := h
  simp

/-- There is no room for another fresh key when the fuel is used up. -/
theorem mem_keys_of_full {dom : List κ} (hdom : ∀ e, Q e → e.1 ∈ dom)
    {done : List (κ × β)} {e : κ × β} (hnd : (keys done).Nodup)
    (hsub : ∀ x ∈ done, Q x) (he : Q e) (hfull : dom.length ≤ done.length) : e.1 ∈ keys done := by
  by_contra hfresh
  have hnd' : (e.1 :: keys done).Nodup := nodup_cons.mpr ⟨hfresh, hnd⟩
  have hsub' : e.1 :: keys done ⊆ dom := by
    refine forall_mem_cons.mpr ⟨hdom e he, ?_⟩
    exact forall_mem_map.mpr fun x hx => hdom x (hsub x hx)
  have hle := (List.Nodup.subperm hnd' hsub').length_le
  rw [length_cons, keys, length_map] at hle
  omega

variable [DecidableEq κ]

def dfs (next : κ × β → List (κ × β)) : Nat → List (κ × β) → κ × β → List (κ × β)
  | 0, done, _ => done
  | fuel + 1, done, e =>
      if e.1 ∈ keys done then done
      else (next e).foldl (dfs next fuel) (done ++ [e])

variable {fuel : Nat} {done : List (κ × β)} {e : κ × β}

/-- The invariant rule. `Q` holds of the entries the walk is given. -/
theorem dfs_rule {P : List (κ × β) → Prop}
    (hvisit : ∀ done e, P done → Q e → e.1 ∉ keys done → P (done ++ [e]))
    (hnext : ∀ e, Q e → ∀ c ∈ next e, Q c)
    (hdone : P done) (he : Q e) : P (dfs next fuel done e) := by
  induction fuel generalizing done e with
  | zero => exact hdone
  | succ fuel ih =>
    unfold dfs
    split
    · exact hdone
    · next hfresh =>
      have hfold : ∀ cs : List (κ × β), (∀ c ∈ cs, Q c) → ∀ acc, P acc →
          P (cs.foldl (dfs next fuel) acc) := by
        intro cs
        induction cs with
        | nil => intro _ acc hacc; exact hacc
        | cons c cs ihcs =>
          intro hcs acc hacc
          exact ihcs (fun c' hc' => hcs c' (mem_cons_of_mem _ hc')) _
            (ih hacc (hcs c mem_cons_self))
      exact hfold _ (hnext e he) _ (hvisit done e hdone he hfresh)

theorem dfs_nodup (h : (keys done).Nodup) : (keys (dfs next fuel done e)).Nodup :=
  dfs_rule (P := fun l => (keys l).Nodup) (Q := fun _ => True)
    (fun _ _ hacc _ hfresh => nodup_keys_snoc hacc hfresh) (fun _ _ _ _ => trivial) h trivial

theorem dfs_forall (hnext : ∀ e, Q e → ∀ c ∈ next e, Q c)
    (hdone : ∀ x ∈ done, Q x) (he : Q e) :
    ∀ x ∈ dfs next fuel done e, Q x :=
  dfs_rule (P := fun l => ∀ x ∈ l, Q x)
    (fun _ _ hacc he _ => forall_mem_snoc hacc he) hnext hdone he

section Fuel

variable {dom : List κ} {Q : κ × β → Prop} (hdom : ∀ e, Q e → e.1 ∈ dom)
include hdom

section

variable (hnext : ∀ e, Q e → ∀ c ∈ next e, Q c)
  (he : Q e) (hnd : (keys done).Nodup) (hdone : ∀ x ∈ done, Q x)
  (hfuel : dom.length < fuel + done.length)
include hnext he hnd hdone hfuel

theorem dfs_closed :
    Continues next done (dfs next fuel done e) ∧ e.1 ∈ keys (dfs next fuel done e) := by
  induction fuel generalizing done e with
  | zero =>
    have hvisited := mem_keys_of_full hdom hnd hdone he (by omega)
    exact ⟨.refl _, hvisited⟩
  | succ fuel ih =>
    unfold dfs
    split
    · next hvisited => exact ⟨.refl _, hvisited⟩
    · next hfresh =>
      -- The children, from the visited list that now has `e`.
      have hfold : ∀ cs : List (κ × β), (∀ c ∈ cs, Q c) → ∀ acc, (keys acc).Nodup →
          (∀ x ∈ acc, Q x) → dom.length < fuel + acc.length →
          Continues next acc (cs.foldl (dfs next fuel) acc) ∧
            ∀ c ∈ cs, c.1 ∈ keys (cs.foldl (dfs next fuel) acc) := by
        intro cs
        induction cs with
        | nil => intro _ acc _ _ _; exact ⟨.refl _, by simp⟩
        | cons c cs ihcs =>
          intro hcs acc hacc hQ hf
          obtain ⟨hc, hcs⟩ := forall_mem_cons.mp hcs
          obtain ⟨hc1, hc2⟩ := ih hc hacc hQ hf
          have hf' : dom.length < fuel + (dfs next fuel acc c).length :=
            Nat.lt_of_lt_of_le hf (Nat.add_le_add_left hc1.length_le _)
          obtain ⟨hr1, hr2⟩ := ihcs hcs (dfs next fuel acc c) (dfs_nodup hacc)
            (dfs_forall hnext hQ hc) hf'
          exact ⟨hc1.trans hr1, forall_mem_cons.mpr ⟨hr1.keys_subset hc2, hr2⟩⟩
      have hfuel' : dom.length < fuel + (done ++ [e]).length := by
        rw [length_append, length_singleton]
        omega
      obtain ⟨⟨t, ht, hclosed⟩, hkids⟩ := hfold (next e) (hnext e he) _
        (nodup_keys_snoc hnd hfresh) (forall_mem_snoc hdone he) hfuel'
      rw [ht] at hclosed hkids ⊢
      exact ⟨⟨e :: t, by simp, forall_mem_cons.mpr ⟨hkids, hclosed⟩⟩, by simp [keys]⟩

theorem dfs_fuel (extra : Nat) : dfs next (fuel + extra) done e = dfs next fuel done e := by
  induction fuel generalizing done e with
  | zero =>
    have hvisited := mem_keys_of_full hdom hnd hdone he (by omega)
    cases extra with
    | zero => rfl
    | succ extra => rw [Nat.zero_add]; exact if_pos hvisited
  | succ fuel ih =>
    rw [Nat.succ_add]
    unfold dfs
    split
    · rfl
    · next hfresh =>
      have hfold : ∀ cs : List (κ × β), (∀ c ∈ cs, Q c) → ∀ acc, (keys acc).Nodup →
          (∀ x ∈ acc, Q x) → dom.length < fuel + acc.length →
          cs.foldl (dfs next (fuel + extra)) acc = cs.foldl (dfs next fuel) acc := by
        intro cs
        induction cs with
        | nil => intro _ acc _ _ _; rfl
        | cons c cs ihcs =>
          intro hcs acc hacc hQ hf
          have hc := hcs c mem_cons_self
          have hlen := (dfs_closed hdom hnext hc hacc hQ hf).1.length_le
          rw [foldl_cons, foldl_cons, ih hc hacc hQ hf]
          exact ihcs (fun c' hc' => hcs c' (mem_cons_of_mem _ hc')) _ (dfs_nodup hacc)
            (dfs_forall hnext hQ hc) (Nat.lt_of_lt_of_le hf (Nat.add_le_add_left hlen _))
      refine hfold (next e) (hnext e he) _ (nodup_keys_snoc hnd hfresh)
        (forall_mem_snoc hdone he) ?_
      rw [length_append, length_singleton]
      omega

end

end Fuel

end OpenDsn.Lib
