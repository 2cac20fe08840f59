import Mathlib

/-!
# The components of a path

A path is a sequence cut at each occurrence of a separator. Every cut is between
two components, so a component has a separator, or an end of the path, on either
side.
-/

namespace FilemanagerHttpd.Library

/-- Either end of a part of a path that is cut out at separators. -/
structure Between {α : Type} (sep : α) (before after : List α) : Prop where
  left : before = [] ∨ ∃ p, before = p ++ [sep]
  right : after = [] ∨ ∃ q, after = sep :: q

theorem between_of_mem_intercalate {α : Type} {sep : α} {x : List α} {cs : List (List α)}
    (h : x ∈ cs) :
    ∃ before after, [sep].intercalate cs = before ++ x ++ after ∧ Between sep before after := by
  induction cs with
  | nil => cases h
  | cons c cs ih =>
    cases cs with
    | nil =>
      obtain rfl : x = c := by simpa using h
      exact ⟨[], [], by simp, .inl rfl, .inl rfl⟩
    | cons d cs =>
      rw [List.intercalate_cons_cons]
      rcases List.mem_cons.mp h with rfl | h
      · exact ⟨[], sep :: [sep].intercalate (d :: cs), by simp, .inl rfl, .inr ⟨_, rfl⟩⟩
      · obtain ⟨before, after, he, hb, ha⟩ := ih h
        refine ⟨c ++ [sep] ++ before, after, by rw [he]; simp, ?_, ha⟩
        rcases hb with rfl | ⟨p, rfl⟩
        · exact .inr ⟨c, by simp⟩
        · exact .inr ⟨c ++ [sep] ++ p, by simp⟩

variable {α : Type} [BEq α] [LawfulBEq α]

/-- What stands between the separators of a path. -/
def components (sep : α) (p : List α) : List (List α) := p.splitOn sep

/-- A component stands between separators or ends of the path. -/
theorem between_of_mem_components {sep : α} {x p : List α} (h : x ∈ components sep p) :
    ∃ before after, p = before ++ x ++ after ∧ Between sep before after := by
  obtain ⟨before, after, he, hb⟩ := between_of_mem_intercalate (α := α) h
  refine ⟨before, after, ?_, hb⟩
  rw [← he, components, List.intercalate_splitOn]

theorem components_eq_singleton {sep : α} {p : List α} (h : sep ∉ p) : components sep p = [p] :=
  List.splitOn_eq_singleton h

/-- Joining two paths with a separator joins their components. -/
theorem components_append_cons (sep : α) (p q : List α) :
    components sep (p ++ sep :: q) = components sep p ++ components sep q := by
  induction p with
  | nil =>
    have h : (([] : List α) ++ sep :: q).splitOn sep = [] :: q.splitOn sep :=
      List.splitOn_append_cons_self_of_not_mem List.not_mem_nil q
    rw [components, h]
    rfl
  | cons a p ih =>
    have hne : components sep p ≠ [] := List.splitOn_ne_nil sep p
    simp only [components, List.cons_append, List.splitOn_cons_eq_if_modifyHead] at ih hne ⊢
    by_cases ha : a == sep
    · rw [if_pos ha, if_pos ha, ih]; rfl
    · rw [if_neg ha, if_neg ha, ih]
      obtain ⟨c, cs, hc⟩ := List.exists_cons_of_ne_nil hne
      rw [hc]; rfl

end FilemanagerHttpd.Library
