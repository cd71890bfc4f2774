import Mathlib.Data.List.Basic

/-!
# The champion of a sequence of challengers

Challengers come one after the other, and one that beats the champion takes its
place.

* `champion_unbeaten`: where `beats` is asymmetric and transitive, no challenger that
  was met beats the champion in the end;
* `champion_append`: then challengers that were met before change nothing.
-/

namespace OpenDsn.Lib

open List

variable {α : Type*} {beats : α → α → Bool} {S : List α} {start : α} {l l' : List α}

variable (beats start l) in
/-- The champion after the challengers `l`. -/
def champion : α :=
  l.foldl (fun held c => if beats c held then c else held) start

theorem champion_cons (c : α) :
    champion beats start (c :: l) = champion beats (if beats c start then c else start) l := rfl

/-- Among the members of `S`, beating is an order. -/
structure BeatsOrder (beats : α → α → Bool) (S : List α) : Prop where
  asymm : ∀ a ∈ S, ∀ b ∈ S, beats a b = true → beats b a = false
  trans : ∀ a ∈ S, ∀ b ∈ S, ∀ c ∈ S, beats a b = true → beats b c = true → beats a c = true

theorem champion_mem (hstart : start ∈ S) (hl : l ⊆ S) : champion beats start l ∈ S := by
  induction l generalizing start with
  | nil => exact hstart
  | cons c l ih =>
    obtain ⟨hc, hl⟩ := cons_subset.mp hl
    rw [champion_cons]
    split
    · exact ih hc hl
    · exact ih hstart hl

theorem champion_of_unbeaten (h : ∀ c ∈ l, beats c start = false) :
    champion beats start l = start := by
  induction l with
  | nil => rfl
  | cons c l ih =>
    obtain ⟨hc, hl⟩ := forall_mem_cons.mp h
    rw [champion_cons, hc]
    exact ih hl

namespace BeatsOrder

variable (ho : BeatsOrder beats S) (hstart : start ∈ S) (hl : l ⊆ S)
include ho hstart hl

/-- A champion stays, or is succeeded by one that beats it. -/
theorem champion_eq_or_beats :
    champion beats start l = start ∨ beats (champion beats start l) start = true := by
  induction l generalizing start with
  | nil => exact .inl rfl
  | cons c l ih =>
    obtain ⟨hc, hl⟩ := cons_subset.mp hl
    rw [champion_cons]
    split
    · next hb =>
      right
      rcases ih hc hl with heq | hbeats
      · rw [heq]
        exact hb
      · exact ho.trans _ (champion_mem hc hl) _ hc _ hstart hbeats hb
    · exact ih hstart hl

theorem champion_unbeaten : ∀ c ∈ l, beats c (champion beats start l) = false := by
  induction l generalizing start with
  | nil => exact forall_mem_nil _
  | cons c l ih =>
    obtain ⟨hc, hl⟩ := cons_subset.mp hl
    rw [champion_cons]
    refine forall_mem_cons.mpr ⟨?_, ?_⟩
    · split
      · -- the challenger took over, and whoever came later beats it
        rcases ho.champion_eq_or_beats hc hl with heq | hbeats
        · rw [heq]
          exact Bool.eq_false_iff.mpr fun h => by simpa [h] using ho.asymm c hc c hc h
        · exact ho.asymm _ (champion_mem hc hl) c hc hbeats
      · next hb =>
        rcases ho.champion_eq_or_beats hstart hl with heq | hbeats
        · rw [heq]
          exact Bool.eq_false_iff.mpr hb
        · refine Bool.eq_false_iff.mpr fun h => hb ?_
          exact ho.trans c hc _ (champion_mem hstart hl) start hstart h hbeats
    · split
      · exact ih hc hl
      · exact ih hstart hl

theorem champion_append (hl' : l' ⊆ l) :
    champion beats start (l ++ l') = champion beats start l := by
  unfold champion
  rw [foldl_append]
  exact champion_of_unbeaten fun c hc => ho.champion_unbeaten hstart hl c (hl' hc)

end BeatsOrder

end OpenDsn.Lib
