import Mathlib.Data.List.Induction
import Mathlib.Data.Multiset.Basic
import Mathlib.Data.Multiset.UnionInter

/-!
# Rooted trees given by parent links

A tree is a multiset of links `(node, parent)`; the root's link has no parent.
`Depth` is the number of links to the root.

* `RootedTree.single`, `RootedTree.grow`: a new root and a new leaf;
* `RootedTree.depth_unique`: a node has one depth;
* `RootedTree.parent`: every node but the root hangs below another node;
* `branchesApart_iff`: when the length of a path and the forks it takes determine it.
-/

namespace OpenDsn.Lib

open List

variable {κ : Type} {root : κ} {links : Multiset (κ × Option κ)} {k : κ} {o : Option κ}

/-- Following the links of a node leads to the root in `d` steps. -/
inductive Depth (root : κ) (links : Multiset (κ × Option κ)) : κ → Nat → Prop
  | root : (root, none) ∈ links → Depth root links root 0
  | child {k p : κ} {d : Nat} :
      (k, some p) ∈ links → Depth root links p d → Depth root links k (d + 1)

variable (root links) in
/-- Each node has one link, and every node leads to the root. -/
structure RootedTree : Prop where
  nodup : (links.map Prod.fst).Nodup
  root_mem : (root, none) ∈ links
  depth : ∀ e ∈ links, ∃ d, Depth root links e.1 d

theorem Depth.mem {d : Nat} (h : Depth root links k d) : ∃ o, (k, o) ∈ links := by
  cases h with
  | root h => exact ⟨_, h⟩
  | child h _ => exact ⟨_, h⟩

theorem Depth.mono {links' : Multiset (κ × Option κ)} (hsub : links ⊆ links') {d : Nat}
    (h : Depth root links k d) : Depth root links' k d := by
  induction h with
  | root h => exact .root (hsub h)
  | child h _ ih => exact .child (hsub h) ih

theorem link_unique (hnd : (links.map Prod.fst).Nodup) {o' : Option κ}
    (h : (k, o) ∈ links) (h' : (k, o') ∈ links) : o = o' :=
  congrArg Prod.snd (Multiset.inj_on_of_nodup_map hnd _ h _ h' rfl)

namespace RootedTree

theorem single (root : κ) : RootedTree root {(root, none)} where
  nodup := by simp
  root_mem := Multiset.mem_singleton_self _
  depth e he := by
    rw [Multiset.mem_singleton.mp he]
    exact ⟨0, .root (Multiset.mem_singleton_self _)⟩

section

variable (h : RootedTree root links) {p : κ}
include h

theorem grow (hp : (p, o) ∈ links)
    (hk : ∀ o', (k, o') ∉ links) : RootedTree root ((k, some p) ::ₘ links) where
  nodup := by
    rw [Multiset.map_cons]
    refine Multiset.nodup_cons.mpr ⟨fun hmem => ?_, h.nodup⟩
    obtain ⟨⟨k', o'⟩, he, rfl⟩ := Multiset.mem_map.mp hmem
    exact hk o' he
  root_mem := Multiset.mem_cons_of_mem h.root_mem
  depth e he := by
    have hsub : links ⊆ (k, some p) ::ₘ links := Multiset.subset_cons _ _
    rcases Multiset.mem_cons.mp he with rfl | he
    · obtain ⟨d, hd⟩ := h.depth (p, o) hp
      exact ⟨d + 1, .child (Multiset.mem_cons_self _ _) (hd.mono hsub)⟩
    · obtain ⟨d, hd⟩ := h.depth e he
      exact ⟨d, hd.mono hsub⟩

theorem depth_unique {d d' : Nat}
    (hd : Depth root links k d) (hd' : Depth root links k d') : d = d' := by
  induction hd generalizing d' with
  | root hr =>
    cases hd' with
    | root => rfl
    | child hc => cases link_unique h.nodup hr hc
  | child hc _ ih =>
    cases hd' with
    | root hr => cases link_unique h.nodup hr hc
    | child hc' hp' =>
      cases link_unique h.nodup hc hc'
      rw [ih hp']

theorem parent_ne (hk : (k, some p) ∈ links) : p ≠ k := by
  rintro rfl
  obtain ⟨d, hd⟩ := h.depth _ hk
  have hd' := h.depth_unique hd (.child hk hd)
  omega

theorem parent_mem (hk : (k, some p) ∈ links) : ∃ o, (p, o) ∈ links := by
  obtain ⟨d, hd⟩ := h.depth _ hk
  cases hd with
  | root hr => cases link_unique h.nodup hr hk
  | child hc hp =>
    cases link_unique h.nodup hc hk
    exact hp.mem

theorem parent (hk : (k, o) ∈ links)
    (hne : k ≠ root) : ∃ p o', o = some p ∧ (p, o') ∈ links ∧ p ≠ k := by
  obtain ⟨d, hd⟩ := h.depth _ hk
  cases hd with
  | root => exact absurd rfl hne
  | @child _ p _ hc hp =>
    obtain ⟨o', ho'⟩ := hp.mem
    exact ⟨p, o', link_unique h.nodup hk hc, ho', h.parent_ne hc⟩

end

end RootedTree

/-! ## Paths by the indexes of children -/

/-- The node at the end of a path from `k`. -/
def descend (kids : κ → List κ) (k : κ) (path : List Nat) : Option κ :=
  path.foldlM (fun k i => (kids k)[i]?) k

/-- Branches off one line that have the same number hold no nodes of one generation with the same
further branches on the way. A line goes on with the first child of each node, and a branch starts
with another child. -/
def BranchesApart (kids : κ → List κ) (root : κ) : Prop :=
  ∀ p a k is js c d, k ≠ 0 → descend kids root (p ++ k :: is) = some c →
    descend kids root (p ++ (replicate (a + 1) 0 ++ k :: js)) = some d →
    is.length = a + 1 + js.length → is.filter (· ≠ 0) ≠ js.filter (· ≠ 0)

section Paths

variable {kids : κ → List κ} {p c d : κ} {i j : Nat} {is js : List Nat}

theorem descend_snoc : descend kids p (is ++ [i]) = some c ↔
    ∃ k, descend kids p is = some k ∧ (kids k)[i]? = some c := by
  rw [descend, foldlM_append]
  simp [descend, Option.bind_eq_some_iff]

/-- The path that goes on with the first child takes the fork of the other one later. -/
theorem fork_later (hj : j ≠ 0) (hlen : is.length = js.length)
    (h : (0 :: is).filter (· ≠ 0) = (j :: js).filter (· ≠ 0)) :
    ∃ a js', 0 :: is = replicate (a + 1) 0 ++ j :: js' ∧ js.length = a + 1 + js'.length ∧
      js.filter (· ≠ 0) = js'.filter (· ≠ 0) := by
  rw [filter_cons_of_neg (by simp), filter_cons_of_pos (by simpa), filter_eq_cons_iff] at h
  obtain ⟨zeros, rest, rfl, hzeros, -, hrest⟩ := h
  have hline : 0 :: zeros = replicate (zeros.length + 1) 0 :=
    eq_replicate_iff.mpr ⟨rfl, by simpa using hzeros⟩
  refine ⟨zeros.length, rest, by rw [← hline, cons_append], ?_, hrest.symm⟩
  rw [← hlen, length_append, length_cons]
  omega

/-- The branches are apart exactly if the length of a path and the forks it takes determine it. -/
theorem branchesApart_iff : BranchesApart kids root ↔
    ∀ is js c d, descend kids root is = some c → descend kids root js = some d →
      is.length = js.length → is.filter (· ≠ 0) = js.filter (· ≠ 0) → is = js := by
  constructor
  · intro h is js c d
    -- By induction on what is left of the paths behind a part `p` that they share.
    suffices ∀ p, descend kids root (p ++ is) = some c → descend kids root (p ++ js) = some d →
        is.length = js.length → is.filter (· ≠ 0) = js.filter (· ≠ 0) → is = js from this []
    induction is generalizing js with
    | nil => exact fun _ _ _ hlen _ => (eq_nil_of_length_eq_zero hlen.symm).symm
    | cons i is ih =>
      intro p hc hd hlen hforks
      cases js with
      | nil => cases hlen
      | cons j js =>
        have hlen' : is.length = js.length := Nat.succ.inj hlen
        by_cases hij : i = j
        · subst hij
          rw [ih js (p ++ [i]) (by simpa using hc) (by simpa using hd) hlen']
          rw [filter_cons, filter_cons] at hforks
          split at hforks
          · exact (List.cons.inj hforks).2
          · exact hforks
        · rcases eq_or_ne i 0 with rfl | hi
          · obtain ⟨a, js', hline, hfork⟩ := fork_later (Ne.symm hij) hlen' hforks
            exact absurd hfork.2 (h p a j js js' d c (Ne.symm hij) hd (hline ▸ hc) hfork.1)
          · rcases eq_or_ne j 0 with rfl | hj
            · obtain ⟨a, is', hline, hfork⟩ := fork_later hi hlen'.symm hforks.symm
              exact absurd hfork.2 (h p a i is is' c d hi hc (hline ▸ hd) hfork.1)
            · rw [filter_cons_of_pos (by simpa), filter_cons_of_pos (by simpa)] at hforks
              exact absurd (List.cons.inj hforks).1 hij
  · intro h p a k is js c d hk hc hd hlen hforks
    have heq := append_cancel_left
      (h _ _ c d hc hd (by simp; omega) (by simpa [hk] using hforks))
    exact hk (List.cons.inj heq).1

/-- A node below which the root is not has one path from the root, if it has one place among the
children of one node. -/
theorem descend_unique (hroot : ∀ is, descend kids root is = some root → is = [])
    (hplace : ∀ p q (i j : Nat) c, (kids p)[i]? = some c → (kids q)[j]? = some c → p = q ∧ i = j)
    (hc : descend kids root is = some c) (hd : descend kids root js = some c) : is = js := by
  induction is using reverseRecOn generalizing js c with
  | nil =>
    cases hc
    exact (hroot js hd).symm
  | append_singleton is i ih =>
    obtain rfl | ⟨js, j, rfl⟩ := eq_nil_or_concat' js
    · cases hd
      exact hroot _ hc
    · obtain ⟨p, hp, hi⟩ := descend_snoc.mp hc
      obtain ⟨q, hq, hj⟩ := descend_snoc.mp hd
      obtain ⟨rfl, rfl⟩ := hplace p q i j c hi hj
      rw [ih hp hq]

end Paths

end OpenDsn.Lib
