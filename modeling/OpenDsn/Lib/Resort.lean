import Mathlib.Data.List.Perm.Basic
import OpenDsn.Lib.Sort

/-!
# Removal by index from a list that is sorted again

A list is kept sorted, and an element is removed by its index: the last one takes its place, and
the list is sorted again. The sort need not be stable, so after a removal an index has an element
that compares equal to the one it had, and not always the same.

* `removeAll_perm`: several indexes of the list can be removed one after another, the highest
  first, if what compares equal to an element of a lower index is to be removed as well;
* `tied_of_removeAll_perm`: with every sort they can be removed only then.
-/

namespace OpenDsn.Lib

open List Option

section Swap

variable {α : Type}

/-- The last element is put in the place of the one that is removed. -/
def swapRemove (l : List α) (i : Nat) : List α :=
  match l.getLast? with
  | none => []
  | some last => (l.set i last).dropLast

theorem swapRemove_perm {l : List α} {i : Nat} {x : α} (h : l[i]? = some x) :
    (x :: swapRemove l i).Perm l := by
  unfold swapRemove
  cases hlast : l.getLast? with
  | none =>
    rw [getLast?_eq_none_iff.mp hlast] at h
    cases h
  | some last =>
    obtain ⟨init, rfl⟩ := getLast?_eq_some_iff.mp hlast
    dsimp only
    by_cases hi : i < init.length
    · rw [getElem?_append_left hi, getElem?_eq_getElem hi] at h
      obtain rfl := some.inj h
      rw [set_append_left _ _ hi, dropLast_concat]
      have hset := (set_perm_cons_eraseIdx hi last).cons init[i]
      have hget := (getElem_cons_eraseIdx_perm hi).cons last
      exact hset.trans ((Perm.swap _ _ _).trans
        (hget.trans (perm_append_singleton last init).symm))
    · obtain ⟨rfl, rfl⟩ : i = init.length ∧ last = x := by
        rw [getElem?_append_right (Nat.le_of_not_lt hi)] at h
        rw [getElem?_singleton] at h
        split at h
        · exact ⟨by omega, some.inj h⟩
        · cases h
      rw [set_append_right _ _ (le_refl _), Nat.sub_self, set_cons_zero,
        dropLast_concat]
      exact (perm_append_singleton last init).symm

theorem length_swapRemove (l : List α) (i : Nat) : (swapRemove l i).length = l.length - 1 := by
  unfold swapRemove
  cases h : l.getLast? with
  | none => rw [getLast?_eq_none_iff.mp h]; rfl
  | some last => rw [length_dropLast, length_set]

theorem swapRemove_subset (l : List α) (i : Nat) : swapRemove l i ⊆ l := by
  intro x hx
  unfold swapRemove at hx
  split at hx
  · cases hx
  · next last hlast =>
    rcases mem_or_eq_of_mem_set (dropLast_subset _ hx) with hx | rfl
    · exact hx
    · exact mem_of_getLast? hlast

end Swap

section Remove

variable {α : Type} {less : α → α → Bool}

def Sorting.remove (srt : Sorting less) (l : List α) (i : Nat) : List α :=
  srt.sort (swapRemove l i)

/-- The indexes are removed from the last in the list to the first. -/
def Sorting.removeAll (srt : Sorting less) (l : List α) (is : List Nat) : List α :=
  is.foldr (fun i l => srt.remove l i) l

variable (srt : Sorting less) {l : List α} {i : Nat} {x : α}

theorem remove_perm (h : l[i]? = some x) : (x :: srt.remove l i).Perm l :=
  ((srt.perm _).cons x).trans (swapRemove_perm h)

theorem removeAll_cons (is : List Nat) :
    srt.removeAll l (i :: is) = srt.remove (srt.removeAll l is) i := rfl

theorem remove_subset (l : List α) (i : Nat) : srt.remove l i ⊆ l :=
  fun _ hx => swapRemove_subset l i ((srt.perm _).subset hx)

theorem removeAll_subset (l : List α) (is : List Nat) : srt.removeAll l is ⊆ l := by
  induction is with
  | nil => exact Subset.refl l
  | cons i is ih => exact fun _ hx => ih (remove_subset srt _ i hx)

theorem length_removeAll (l : List α) (is : List Nat) :
    (srt.removeAll l is).length = l.length - is.length := by
  induction is with
  | nil => rfl
  | cons i is ih =>
    rw [removeAll_cons, Sorting.remove, (srt.perm _).length_eq, length_swapRemove, ih, length_cons,
      Nat.sub_sub]

/-- The lists that are sorted get shorter, so two sorts may differ on a shorter one. -/
theorem removeAll_congr {srt srt' : Sorting less} {n : Nat}
    (h : ∀ l : List α, n < l.length → srt.sort l = srt'.sort l) {is : List Nat}
    (hlen : n + is.length < l.length) : srt.removeAll l is = srt'.removeAll l is := by
  induction is with
  | nil => rfl
  | cons i is ih =>
    rw [length_cons] at hlen
    rw [removeAll_cons, removeAll_cons, ih (by omega)]
    refine h _ ?_
    rw [length_swapRemove, length_removeAll]
    omega

end Remove

section Keys

variable {α β : Type} [LinearOrder β] {less : α → α → Bool} {key : α → β}
  (hkey : ∀ a b, less a b = true ↔ key a < key b) (srt : Sorting less)
  {l : List α} {i : Nat} {x : α}

include hkey

theorem sorted_iff_keys :
    (l.Pairwise fun a b => less b a = false) ↔ (l.map key).Pairwise (· ≤ ·) := by
  rw [pairwise_map]
  refine List.Pairwise.iff fun a b => ?_
  rw [← Bool.not_eq_true, hkey, not_lt]

section

variable (hl : l.Pairwise fun a b => less b a = false)
include hl

theorem keys_remove (h : l[i]? = some x) : (srt.remove l i).map key = (l.map key).eraseIdx i := by
  have hlt : i < l.length := (List.getElem?_eq_some_iff.mp h).choose
  have hget : l[i] = x := (List.getElem?_eq_some_iff.mp h).choose_spec
  have hperm : (srt.remove l i).Perm (l.eraseIdx i) := by
    have herase := getElem_cons_eraseIdx_perm hlt
    rw [hget] at herase
    exact ((remove_perm srt h).trans herase.symm).cons_inv
  -- two sorted permutations have the same keys in the same places
  rw [eraseIdx_map]
  exact Perm.eq_of_pairwise' ((sorted_iff_keys hkey).mp (srt.sorted _))
    ((sorted_iff_keys hkey).mp (hl.sublist (eraseIdx_sublist _ _))) (hperm.map key)

/-- What a removal of several indexes takes out, if it is to be in `picks`. -/
structure Removed (key : α → β) (less : α → α → Bool) (picks l : List α) (is : List Nat)
    (out : List α) : Prop where
  taken : ∃ taken, (taken ++ out).Perm l ∧ taken.length = is.length ∧ taken ⊆ picks
  sorted : out.Pairwise fun a b => less b a = false
  /-- Below the indexes the keys stay in their places. -/
  keys : ∀ b, (∀ i ∈ is, b ≤ i) → ∀ j, j < b → (out.map key)[j]? = (l.map key)[j]?

variable {picks : List α} {is : List Nat} (his : is.Pairwise (· < ·))
  (hget : ∀ i ∈ is, ∃ x ∈ picks, l[i]? = some x)
  (hties : ∀ i ∈ is, (∃ j ∈ is, i < j) → ∀ x ∈ l, ∀ y, l[i]? = some y → key x = key y → x ∈ picks)
include his hget hties

theorem removed_removeAll : Removed key less picks l is (srt.removeAll l is) := by
  induction is with
  | nil => exact ⟨⟨[], .refl l, rfl, nil_subset _⟩, hl, fun _ _ _ _ => rfl⟩
  | cons i is ih =>
    obtain ⟨hlt, his⟩ := pairwise_cons.mp his
    have hrest := ih his (fun j hj => hget j (mem_cons_of_mem i hj))
      fun j hj hlater => hties j (mem_cons_of_mem i hj)
        (hlater.imp fun k hk => ⟨mem_cons_of_mem i hk.1, hk.2⟩)
    obtain ⟨taken, hperm, hlen, hsub⟩ := hrest.taken
    obtain ⟨y, hy, hiy⟩ := hget i mem_cons_self
    -- The index has an element with the key of the one it had at first.
    have hkeys := hrest.keys (i + 1) hlt i (Nat.lt_succ_self i)
    rw [getElem?_map, getElem?_map, hiy] at hkeys
    obtain ⟨x, hx, hxy⟩ := map_eq_some_iff.mp hkeys
    have hpick : x ∈ picks := by
      cases is with
      | nil =>
        obtain rfl : x = y := mem_unique hx hiy
        exact hy
      | cons j is =>
        have hmem : x ∈ l := hperm.subset (mem_append_right _ (mem_of_getElem? hx))
        exact hties i mem_cons_self
          ⟨j, mem_cons_of_mem i mem_cons_self, hlt j mem_cons_self⟩ x hmem y hiy hxy
    rw [removeAll_cons]
    refine ⟨⟨x :: taken, ?_, congrArg Nat.succ hlen, cons_subset.mpr ⟨hpick, hsub⟩⟩,
      srt.sorted _, fun b hb j hj => ?_⟩
    · exact perm_middle.symm.trans (((remove_perm srt hx).append_left taken).trans hperm)
    · have hbi : b ≤ i := hb i mem_cons_self
      rw [keys_remove hkey srt hrest.sorted hx,
        getElem?_eraseIdx_of_lt (hj.trans_le hbi)]
      exact hrest.keys b (fun k hk => hb k (mem_cons_of_mem i hk)) j hj

/-- Removing indexes takes the elements at these indexes out, if an element that compares equal
to one of them, other than the one of the highest index, is to be removed as well. -/
theorem removeAll_perm (hnodup : l.Nodup) (hlen : picks.length = is.length) :
    (picks ++ srt.removeAll l is).Perm l := by
  obtain ⟨taken, hperm, hcount, hsub⟩ := (removed_removeAll hkey srt hl his hget hties).taken
  have htaken : taken.Nodup := ((hperm.nodup_iff.mpr hnodup).sublist
    (sublist_append_left _ _))
  have hpicks : taken.Perm picks := (subperm_of_subset htaken hsub).perm_of_length_le
    (le_of_eq (hlen.trans hcount.symm))
  exact (hpicks.symm.append_right _).trans hperm

end

omit hkey in
theorem set_of_getElem? {γ : Type} {ks : List γ} {k : γ} (h : ks[i]? = some k) :
    ks.set i k = ks := by
  obtain ⟨hlt, rfl⟩ := List.getElem?_eq_some_iff.mp h
  exact set_getElem_self hlt

omit [LinearOrder β] hkey in
theorem keys_swap {y : α} {j : Nat} (hi : l[i]? = some x) (hj : l[j]? = some y)
    (hxy : key x = key y) : ((l.set i y).set j x).map key = l.map key := by
  have hki : (l.map key)[i]? = some (key y) := by rw [getElem?_map, hi, map_some, hxy]
  have hkj : (l.map key)[j]? = some (key x) := by rw [getElem?_map, hj, map_some, hxy]
  rw [map_set, map_set, set_of_getElem? hki, set_of_getElem? hkj]

/-- An element that compares equal to the one of an index may be there with another sort, which
differs in the last list that is sorted. -/
theorem exists_removeAll [DecidableEq α] {is : List Nat} {k : Nat} {z : α}
    (hz : (srt.removeAll l (k :: is))[i]? = some z)
    (hx : x ∈ srt.removeAll l (k :: is)) (hzx : key z = key x) :
    ∃ srt' : Sorting less, (srt'.removeAll l (k :: is))[i]? = some x := by
  obtain ⟨u, hu⟩ := getElem?_of_mem hx
  by_cases hui : u = i
  · exact ⟨srt, hui ▸ hu⟩
  generalize hm : srt.removeAll l (k :: is) = m at hz hu
  let last := swapRemove (srt.removeAll l is) k
  have hlast : srt.sort last = m := hm
  obtain ⟨hi, hgetz⟩ := List.getElem?_eq_some_iff.mp hz
  have hperm : ((m.set i x).set u z).Perm last := by
    obtain ⟨hult, rfl⟩ := List.getElem?_eq_some_iff.mp hu
    subst hgetz
    exact (set_set_perm hi hult).trans (hlast ▸ srt.perm last)
  have hsorted : ((m.set i x).set u z).Pairwise fun a b => less b a = false := by
    rw [sorted_iff_keys hkey, keys_swap hz hu hzx, ← sorted_iff_keys hkey, ← hlast]
    exact srt.sorted last
  let swapping : Sorting less :=
    ⟨fun a => if a = last then (m.set i x).set u z else srt.sort a,
      fun a => by
        split
        · next ha => exact ha ▸ hperm
        · exact srt.perm a,
      fun a => by
        split
        · exact hsorted
        · exact srt.sorted a⟩
  have hsame : swapping.removeAll l is = srt.removeAll l is := by
    refine removeAll_congr (n := last.length) (fun a ha => if_neg fun heq => ?_) ?_
    · rw [heq] at ha
      exact lt_irrefl _ ha
    · rw [← hlast, (srt.perm _).length_eq] at hi
      rw [length_swapRemove, length_removeAll] at hi ⊢
      omega
  refine ⟨swapping, ?_⟩
  rw [removeAll_cons, hsame]
  show (if last = last then _ else _ : List α)[i]? = some x
  rw [if_pos rfl, List.getElem?_set_ne hui, List.getElem?_set_self hi]

/-- If the indexes take out the elements `picks` with every sort, what compares equal to one of
them, other than the one of the highest index, is in `picks` as well: there is a sort with which
it is removed in its place. -/
theorem tied_of_removeAll_perm [DecidableEq α] {picks : List α} {is : List Nat}
    (hl : l.Pairwise fun a b => less b a = false) (his : is.Pairwise (· < ·))
    (hvalid : ∀ i ∈ is, i < l.length) (hnodup : l.Nodup)
    (hall : ∀ srt : Sorting less, (picks ++ srt.removeAll l is).Perm l) :
    ∀ i ∈ is, (∃ j ∈ is, i < j) → ∀ x ∈ l, ∀ y, l[i]? = some y → key x = key y → x ∈ picks := by
  rintro i hi ⟨j, hj, hij⟩ x hx y hy hxy
  by_contra hpick
  obtain ⟨is₁, is₂, rfl⟩ := append_of_mem hi
  obtain ⟨-, his₂, hbelow⟩ := pairwise_append.mp his
  obtain ⟨habove, his₂⟩ := pairwise_cons.mp his₂
  have hremoved : ∀ srt : Sorting less, Removed key less l l is₂ (srt.removeAll l is₂) := by
    refine fun srt => removed_removeAll hkey srt hl his₂ (fun k hk => ?_) fun _ _ _ z hz _ _ _ => hz
    have hk := hvalid k (mem_append_right _ (mem_cons_of_mem i hk))
    exact ⟨l[k], getElem_mem hk, getElem?_eq_getElem hk⟩
  have hstays : ∀ srt : Sorting less, x ∈ srt.remove (srt.removeAll l is₂) i := by
    intro srt
    have hmem := (mem_append.mp ((hall srt).mem_iff.mpr hx)).resolve_left hpick
    unfold Sorting.removeAll at hmem
    rw [foldr_append] at hmem
    exact removeAll_subset srt _ is₁ hmem
  have hnot : ∀ srt : Sorting less, (srt.removeAll l is₂)[i]? ≠ some x := by
    intro srt hsrt
    obtain ⟨taken, hperm, -⟩ := (hremoved srt).taken
    have hnodup' := (hperm.nodup_iff.mpr hnodup).sublist (sublist_append_right _ _)
    exact (nodup_cons.mp ((remove_perm srt hsrt).nodup_iff.mpr hnodup')).1 (hstays srt)
  -- with a stable sort the index has an element with the key of `x`
  let stable := Sorting.stable (StrictWeak.of_key hkey)
  have hkeys := (hremoved stable).keys (i + 1) habove i (Nat.lt_succ_self i)
  rw [getElem?_map, getElem?_map, hy] at hkeys
  obtain ⟨z, hz, hzy⟩ := map_eq_some_iff.mp hkeys
  cases is₂ with
  | nil =>
    rcases mem_append.mp hj with hj | hj
    · exact absurd (hbelow j hj i mem_cons_self) (not_lt.mpr (le_of_lt hij))
    · exact absurd (mem_singleton.mp hj) (ne_of_gt hij)
  | cons k is₃ =>
    obtain ⟨srt, hsrt⟩ := exists_removeAll hkey stable hz
      (remove_subset stable _ i (hstays stable)) (hzy.trans hxy.symm)
    exact hnot srt hsrt

end Keys

end OpenDsn.Lib
