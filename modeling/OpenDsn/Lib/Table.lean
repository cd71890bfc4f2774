import Mathlib.Data.List.AList
import Mathlib.Algebra.BigOperators.Group.Finset.Basic
import Mathlib.Algebra.GroupWithZero.Nat

/-!
# Go maps

A Go map is an association list with distinct keys. This module has what the
component proofs need beside Mathlib's lookup lemmas: the values, the total of
a weight over the values and how it changes under an update, and the order in
which `range` visits a map, which the language leaves open.
-/

namespace OpenDsn.Lib

open List

/-- A Go map from `κ` to `ν`. -/
abbrev Table (κ ν : Type) := AList fun _ : κ => ν

namespace Table

variable {κ ν : Type}

/-- The value of a key. -/
def get? [DecidableEq κ] (t : Table κ ν) (k : κ) : Option ν := AList.lookup k t

def insert [DecidableEq κ] (t : Table κ ν) (k : κ) (v : ν) : Table κ ν := AList.insert k v t

/-- `delete` on the map. -/
def erase [DecidableEq κ] (t : Table κ ν) (k : κ) : Table κ ν := AList.erase k t

def values (t : Table κ ν) : List ν := t.entries.map Sigma.snd

/-- The keys with their values. -/
def pairs (t : Table κ ν) : List (κ × ν) := t.entries.map fun e => (e.1, e.2)

/-- The map with the entries of `t'` put in. -/
def merge [DecidableEq κ] (t t' : Table κ ν) : Table κ ν :=
  t'.entries.foldr (fun e r => insert r e.1 e.2) t

/-- The map without some keys. -/
def eraseAll [DecidableEq κ] (t : Table κ ν) (ks : List κ) : Table κ ν := ks.foldl erase t

/-- The map with its keys and values translated. -/
def translate {κ' ν' : Type} [DecidableEq κ'] (f : κ → κ') (g : ν → ν') (t : Table κ ν) :
    Table κ' ν' :=
  t.entries.foldr (fun e r => insert r (f e.1) (g e.2)) ∅

/-- `len` of the map. -/
def size (t : Table κ ν) : Nat := t.entries.length

/-- The sum of a weight over the values. -/
def total (w : ν → Nat) (t : Table κ ν) : Nat := (t.entries.map fun e => w e.2).sum

theorem total_eq_sum (w : ν → Nat) (t : Table κ ν) : total w t = (t.values.map w).sum := by
  unfold total values
  rw [map_map]
  rfl

theorem size_eq_total (t : Table κ ν) : size t = total (fun _ => 1) t := by
  simp [size, total]

theorem size_eq_length_keys (t : Table κ ν) : size t = t.keys.length := by
  simp [size, AList.keys, List.keys]

variable [DecidableEq κ] {t : Table κ ν} {k : κ} {v : ν}

theorem get?_insert_self : get? (t.insert k v) k = some v := AList.lookup_insert t

theorem get?_insert (k' : κ) : get? (t.insert k v) k' = if k' = k then some v else t.get? k' := by
  split
  · next hk => subst hk; exact AList.lookup_insert t
  · next hk => exact AList.lookup_insert_ne hk

theorem get?_insert_cases {k' : κ} {v' : ν} (h : get? (t.insert k v) k' = some v') :
    k' = k ∧ v' = v ∨ k' ≠ k ∧ t.get? k' = some v' := by
  rw [get?_insert] at h
  split at h
  · next hk => exact .inl ⟨hk, (Option.some.inj h).symm⟩
  · next hk => exact .inr ⟨hk, h⟩

/-- What holds of the new entry and of all old ones holds of all. -/
theorem forall_insert {p : κ → ν → Prop} (hk : p k v) (h : ∀ k v, t.get? k = some v → p k v) :
    ∀ k' v', get? (t.insert k v) k' = some v' → p k' v' := by
  intro k' v' hget
  rcases get?_insert_cases hget with ⟨rfl, rfl⟩ | ⟨-, hget⟩
  · exact hk
  · exact h k' v' hget

theorem get?_erase (k' : κ) : get? (t.erase k) k' = if k' = k then none else t.get? k' := by
  split
  · next hk => subst hk; exact AList.lookup_erase k' t
  · next hk => exact AList.lookup_erase_ne hk

theorem get?_erase_eq_some {k' : κ} :
    get? (t.erase k) k' = some v ↔ k' ≠ k ∧ t.get? k' = some v := by
  rw [get?_erase, Option.ite_none_left_eq_some]

theorem mem_keys_iff : k ∈ t.keys ↔ ∃ v, t.get? k = some v := by
  rw [← AList.mem_keys, ← AList.lookup_isSome]
  exact Option.isSome_iff_exists

theorem mem_values : v ∈ values t ↔ ∃ k, t.get? k = some v := by
  unfold values
  rw [mem_map]
  constructor
  · rintro ⟨⟨k, v'⟩, he, rfl⟩
    exact ⟨k, AList.mem_lookup_iff.mpr he⟩
  · rintro ⟨k, hk⟩
    exact ⟨⟨k, v⟩, AList.mem_lookup_iff.mp hk, rfl⟩

theorem mem_pairs : (k, v) ∈ t.pairs ↔ t.get? k = some v := by
  unfold pairs
  rw [mem_map]
  constructor
  · rintro ⟨⟨k', v'⟩, he, heq⟩
    cases heq
    exact AList.mem_lookup_iff.mpr he
  · intro h
    exact ⟨⟨k, v⟩, AList.mem_lookup_iff.mp h, rfl⟩

omit [DecidableEq κ] in
theorem pairs_keys_nodup : (t.pairs.map Prod.fst).Nodup := by
  have hkeys : t.pairs.map Prod.fst = t.keys := by
    unfold pairs
    rw [map_map]
    rfl
  rw [hkeys]
  exact t.keys_nodup

theorem get?_merge (t' : Table κ ν) (k : κ) : (t.merge t').get? k = (t'.get? k).or (t.get? k) := by
  unfold merge
  show _ = (List.dlookup k t'.entries).or _
  induction t'.entries with
  | nil => rfl
  | cons e l ih =>
    rw [foldr_cons, get?_insert, ih]
    split
    · next he =>
      subst he
      rw [dlookup_cons_eq]
      rfl
    · next he => rw [dlookup_cons_ne _ _ he]

theorem get?_eraseAll (ks : List κ) (k : κ) :
    (t.eraseAll ks).get? k = if k ∈ ks then none else t.get? k := by
  unfold eraseAll
  induction ks generalizing t with
  | nil => simp
  | cons k' ks ih =>
    rw [foldl_cons, ih, get?_erase]
    by_cases hk : k = k' <;> simp [hk]

section FoldInsert

variable {α : Type} {key : α → κ} {val : α → ν} {l : List α}

theorem get?_foldl_insert_of_forall_ne (h : ∀ a ∈ l, key a ≠ k) :
    (l.foldl (fun t a => t.insert (key a) (val a)) t).get? k = t.get? k := by
  induction l generalizing t with
  | nil => rfl
  | cons a l ih =>
    rw [foldl_cons, ih fun a' ha' => h a' (mem_cons_of_mem a ha'), get?_insert,
      if_neg (h a mem_cons_self).symm]

/-- Where all that is put in under a key is the same. -/
theorem get?_foldl_insert_of_mem {a : α} (ha : a ∈ l) (hkey : key a = k)
    (hval : ∀ a' ∈ l, key a' = k → val a' = v) :
    (l.foldl (fun t a => t.insert (key a) (val a)) t).get? k = some v := by
  induction l generalizing t a with
  | nil => cases ha
  | cons a₀ l ih =>
    rw [foldl_cons]
    have htail : ∀ a' ∈ l, key a' = k → val a' = v :=
      fun a' ha' => hval a' (mem_cons_of_mem a₀ ha')
    by_cases hlater : ∃ a' ∈ l, key a' = k
    · obtain ⟨a', ha', hkey'⟩ := hlater
      exact ih ha' hkey' htail
    · have hne : ∀ a' ∈ l, key a' ≠ k := fun a' ha' hk => hlater ⟨a', ha', hk⟩
      rcases mem_cons.mp ha with rfl | ha
      · rw [get?_foldl_insert_of_forall_ne hne, get?_insert, if_pos hkey.symm,
          hval a mem_cons_self hkey]
      · exact absurd hkey (hne a ha)

end FoldInsert

theorem erase_of_get?_none (h : t.get? k = none) : t.erase k = t :=
  AList.ext (kerase_of_notMem_keys (AList.lookup_eq_none.mp h))

section Translate

variable {κ' ν' : Type} [DecidableEq κ'] {f : κ → κ'} (g : ν → ν') (t : Table κ ν)

theorem get?_translate (hf : Function.Injective f) (k : κ) :
    (translate f g t).get? (f k) = (t.get? k).map g := by
  unfold translate
  show _ = (List.dlookup k t.entries).map g
  induction t.entries with
  | nil => rfl
  | cons e l ih =>
    rw [foldr_cons, get?_insert, ih]
    by_cases he : k = e.1
    · subst he
      rw [if_pos rfl, dlookup_cons_eq]
      rfl
    · rw [if_neg fun h => he (hf h), dlookup_cons_ne _ _ he]

omit [DecidableEq κ] in
theorem get?_translate_none {x : κ'} (hx : ∀ k, f k ≠ x) : (translate f g t).get? x = none := by
  unfold translate
  induction t.entries with
  | nil => rfl
  | cons e l ih => rw [foldr_cons, get?_insert, if_neg fun h => hx e.1 h.symm, ih]

end Translate

/-- Erasing a key takes its value out of a sum over the values. -/
theorem sum_erase {M : Type*} [AddCommMonoid M] (w : ν → M) (h : t.get? k = some v) :
    (t.values.map w).sum = w v + ((t.erase k).values.map w).sum := by
  have hmem : k ∈ t.entries.keys := AList.lookup_isSome.mp (Option.isSome_of_eq_some h)
  obtain ⟨v', l₁, l₂, _, hl, he⟩ := exists_of_kerase hmem
  have hv : t.get? k = some v' := AList.mem_lookup_iff.mpr (by rw [hl]; simp)
  obtain rfl : v = v' := Option.mem_unique h hv
  show ((t.entries.map _).map w).sum = w v + (((t.entries.kerase k).map _).map w).sum
  rw [he, hl]
  simp only [map_append, map_cons, sum_append, sum_cons]
  exact add_left_comm _ _ _

section

variable (w : ν → Nat) (ks : List κ)

/-- Erasing a key takes the weight of its value away. -/
theorem total_erase (h : t.get? k = some v) : total w t = w v + total w (t.erase k) := by
  rw [total_eq_sum, total_eq_sum]
  exact sum_erase w h

theorem total_insert : total w (t.insert k v) = w v + total w (t.erase k) := rfl

theorem total_insert_of_none (h : t.get? k = none) : total w (t.insert k v) = w v + total w t := by
  rw [total_insert, erase_of_get?_none h]

theorem total_insert_of_some (h : t.get? k = some v) (v' : ν) :
    w v + total w (t.insert k v') = w v' + total w t := by
  rw [total_insert, total_erase w h, Nat.add_left_comm]

theorem le_total (h : t.get? k = some v) : w v ≤ total w t := by
  rw [total_erase w h]
  exact Nat.le_add_right _ _

theorem size_erase (h : t.get? k = some v) : size t = size (t.erase k) + 1 := by
  rw [size_eq_total, size_eq_total, total_erase _ h, add_comm]

theorem size_insert_of_none (h : t.get? k = none) : size (t.insert k v) = size t + 1 := by
  rw [size_eq_total, size_eq_total, total_insert_of_none _ h, add_comm]

theorem size_insert_of_some {v' : ν} (h : t.get? k = some v') : size (t.insert k v) = size t := by
  rw [size_eq_total, size_eq_total, total_insert, total_erase _ h]

theorem total_erase_le : total w (t.erase k) ≤ total w t := by
  cases h : t.get? k with
  | none => rw [erase_of_get?_none h]
  | some v => rw [total_erase w h]; exact Nat.le_add_left _ _

theorem total_erase_eq_iff :
    total w (t.erase k) = total w t ↔ ∀ v, t.get? k = some v → w v = 0 := by
  cases h : t.get? k with
  | none => simp [erase_of_get?_none h]
  | some v => rw [total_erase w h]; simp

theorem total_eraseAll_le : total w (t.eraseAll ks) ≤ total w t := by
  induction ks generalizing t with
  | nil => exact le_refl _
  | cons k ks ih => exact le_trans ih (total_erase_le w)

/-- Erasing keys leaves the total as it is exactly when they weigh nothing. -/
theorem total_eraseAll_eq_iff :
    total w (t.eraseAll ks) = total w t ↔ ∀ k ∈ ks, ∀ v, t.get? k = some v → w v = 0 := by
  induction ks generalizing t with
  | nil => simp [eraseAll]
  | cons k ks ih =>
    have hle : total w ((t.erase k).eraseAll ks) ≤ total w (t.erase k) := total_eraseAll_le w ks
    have hle' : total w (t.erase k) ≤ total w t := total_erase_le w
    constructor
    · intro h k' hk' v hv
      have hk := (total_erase_eq_iff w).mp (le_antisymm hle' (h ▸ hle))
      rcases mem_cons.mp hk' with rfl | hk'
      · exact hk v hv
      · by_cases heq : k' = k
        · subst heq; exact hk v hv
        · refine ih.mp (le_antisymm hle (h ▸ hle')) k' hk' v ?_
          exact get?_erase_eq_some.mpr ⟨heq, hv⟩
    · intro h
      rw [← (total_erase_eq_iff w).mpr (h k mem_cons_self)]
      refine ih.mpr fun k' hk' v hv => ?_
      exact h k' (mem_cons_of_mem _ hk') v (get?_erase_eq_some.mp hv).2

theorem total_eq_zero_iff : total w t = 0 ↔ ∀ k v, t.get? k = some v → w v = 0 := by
  unfold total
  rw [List.sum_eq_zero_iff_forall_eq_nat]
  constructor
  · intro h k v hv
    exact h _ (List.mem_map.mpr ⟨⟨k, v⟩, AList.mem_lookup_iff.mp hv, rfl⟩)
  · intro h x hx
    obtain ⟨⟨k, v⟩, he, rfl⟩ := List.mem_map.mp hx
    exact h k v (AList.mem_lookup_iff.mpr he)

end

theorem size_eq_zero_iff : size t = 0 ↔ ∀ k, t.get? k = none := by
  rw [size_eq_total, total_eq_zero_iff]
  constructor
  · intro h k
    cases hk : t.get? k with
    | none => rfl
    | some v => exact absurd (h k v hk) Nat.one_ne_zero
  · intro h k v hv
    rw [h k] at hv
    cases hv

theorem size_le {t' : Table κ ν} (h : ∀ k, t.get? k ≠ none → t'.get? k ≠ none) :
    size t ≤ size t' := by
  have hsub : t.keys ⊆ t'.keys := by
    intro k hk
    obtain ⟨v, hv⟩ := mem_keys_iff.mp hk
    have hne : t'.get? k ≠ none := h k (by rw [hv]; exact Option.some_ne_none v)
    obtain ⟨v', hv'⟩ := Option.ne_none_iff_exists'.mp hne
    exact mem_keys_iff.mpr ⟨v', hv'⟩
  rw [size_eq_length_keys, size_eq_length_keys]
  exact (subperm_of_subset t.keys_nodup hsub).length_le

theorem size_congr {t' : Table κ ν} (h : ∀ k, t.get? k ≠ none ↔ t'.get? k ≠ none) :
    size t = size t' :=
  le_antisymm (size_le fun k => (h k).mp) (size_le fun k => (h k).mpr)

/-- A sum over the values, in whatever order they come, is one over the keys. -/
theorem sum_values {M : Type*} [AddCommMonoid M] (w : ν → M) :
    (t.values.map w).sum = ∑ k ∈ t.keys.toFinset, ((t.get? k).map w).getD 0 := by
  rw [sum_toFinset _ t.keys_nodup]
  have hentries : ∀ e ∈ t.entries, w e.2 = ((t.get? e.1).map w).getD 0 := by
    intro e he
    have hget : t.get? e.1 = some e.2 := AList.mem_lookup_iff.mpr he
    rw [hget]
    rfl
  show ((t.entries.map Sigma.snd).map w).sum = ((t.entries.map Sigma.fst).map _).sum
  rw [map_map, map_map]
  exact congrArg List.sum (map_congr_left hentries)

end Table

/-- Some order on the elements of a list: the order in which `range` visits a
map, or the outcome of a shuffle. -/
structure Arrangement where
  arrange : {α : Type} → List α → List α
  perm : ∀ {α : Type} (l : List α), (arrange l).Perm l

/-- Leaves every list as it is. -/
def Arrangement.listed : Arrangement where
  arrange l := l
  perm l := List.Perm.refl l

end OpenDsn.Lib
