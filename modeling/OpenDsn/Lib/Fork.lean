import Mathlib.Data.List.Basic

/-!
# Lists that part once

Two walks away from one root that may part but never meet again are two lists
whose common members are a common prefix. `Fork xs ys` says so. Going from the
end of `xs` to the end of `ys` takes back `xs` outside `ys`, last member
first, and then walks `ys` outside `xs`. Two such moves in a row compose to
the direct one: `fork_back_merge` for the part that is taken back and
`fork_forth_merge` for the part that is walked.
-/

namespace OpenDsn.Lib

open List

variable {α : Type}

/-- `xs` and `ys` share a prefix and no member after it. -/
def Fork (xs ys : List α) : Prop :=
  ∃ stem xs' ys', xs = stem ++ xs' ∧ ys = stem ++ ys' ∧ (∀ x ∈ xs', x ∉ ys) ∧ ∀ y ∈ ys', y ∉ xs

theorem Fork.symm {xs ys : List α} : Fork xs ys → Fork ys xs
  | ⟨stem, xs', ys', hx, hy, hx', hy'⟩ => ⟨stem, ys', xs', hy, hx, hy', hx'⟩

variable [DecidableEq α]

theorem filter_not_mem_left {stem xs' ys' : List α} (h : ∀ x ∈ xs', x ∉ stem ++ ys') :
    (stem ++ xs').filter (· ∉ stem ++ ys') = xs' := by
  have hstem : stem.filter (· ∉ stem ++ ys') = [] := by
    rw [filter_eq_nil_iff]
    intro x hx
    simp [hx]
  have htail : xs'.filter (· ∉ stem ++ ys') = xs' := by
    rw [filter_eq_self]
    intro x hx
    simpa using h x hx
  rw [filter_append, hstem, htail, nil_append]

/-- What the first move walks and the second one keeps, followed by what the
second move walks outside the first list, is what the direct move walks. -/
theorem fork_forth_merge {a b c : List α} (hbc : Fork b c) :
    b.filter (fun x => x ∉ a ∧ x ∈ c) ++ c.filter (fun x => x ∉ b ∧ x ∉ a) = c.filter (· ∉ a) := by
  obtain ⟨stem, b', c', rfl, rfl, hb', hc'⟩ := hbc
  simp only [filter_append]
  have h1 : stem.filter (fun x => x ∉ a ∧ x ∈ stem ++ c') = stem.filter (· ∉ a) := by
    refine filter_congr fun x hx => ?_
    simp [hx]
  have h2 : b'.filter (fun x => x ∉ a ∧ x ∈ stem ++ c') = [] := by
    rw [filter_eq_nil_iff]
    intro x hx
    have := hb' x hx
    simp [this]
  have h3 : stem.filter (fun x => x ∉ stem ++ b' ∧ x ∉ a) = [] := by
    rw [filter_eq_nil_iff]
    intro x hx
    simp [hx]
  have h4 : c'.filter (fun x => x ∉ stem ++ b' ∧ x ∉ a) = c'.filter (· ∉ a) := by
    refine filter_congr fun x hx => ?_
    have := hc' x hx
    simp [this]
  rw [h1, h2, h3, h4, append_nil, nil_append]

/-- What the first move takes back, without what the second one walks again,
followed by what the second move takes back below it, is what the direct move
takes back. -/
theorem fork_back_merge {a b c : List α} (hab : Fork a b) :
    a.reverse.filter (fun x => x ∉ b ∧ x ∉ c) ++ b.reverse.filter (fun x => x ∈ a ∧ x ∉ c) =
      a.reverse.filter (· ∉ c) := by
  -- the way forth from `b` to `a`, read backwards
  have h := congrArg List.reverse (fork_forth_merge (a := c) hab.symm)
  simp only [reverse_append, ← filter_reverse] at h
  simpa only [and_comm] using h

end OpenDsn.Lib
