import Inspector.Words.Split
import Mathlib.Data.List.Infix

/-! # Lexical resolution of paths

The words of a path are resolved one after the other against the elements of a directory: one of
them stays where it is, one goes up, and any other word goes down. At the top there is nowhere to go
up to. A list of elements is written with a separator in front of each of them, and the top as a
separator.
-/

namespace Words

variable {α : Type*} [DecidableEq α]

/-- One word after another, with the words that stay and go up. -/
def step (here up : List α) (els : List (List α)) (w : List α) : List (List α) :=
  if w = up then els.dropLast else if w = here then els else els ++ [w]

/-- The elements that a list of words leads to. -/
def follow (here up : List α) (els ws : List (List α)) : List (List α) :=
  ws.foldl (step here up) els

/-- The path to a list of elements. -/
def render (sep : α) (els : List (List α)) : List α :=
  if els = [] then [sep] else els.flatMap fun w => sep :: w

/-- A word that goes down. -/
structure IsElement (sep : α) (here up w : List α) : Prop extends IsWord sep w where
  ne_here : w ≠ here
  ne_up : w ≠ up

variable {sep : α} {here up w : List α} {els ws : List (List α)}

theorem follow_append (els ws vs : List (List α)) :
    follow here up els (ws ++ vs) = follow here up (follow here up els ws) vs :=
  List.foldl_append

theorem step_of_isElement (h : IsElement sep here up w) : step here up els w = els ++ [w] := by
  rw [step, if_neg h.ne_up, if_neg h.ne_here]

/-- Elements are appended. -/
theorem follow_of_isElement (h : ∀ w ∈ ws, IsElement sep here up w) :
    follow here up els ws = els ++ ws := by
  induction ws generalizing els with
  | nil => exact (List.append_nil els).symm
  | cons w ws ih =>
    have hstep : follow here up els (w :: ws) = follow here up (els ++ [w]) ws := by
      rw [← step_of_isElement (h w List.mem_cons_self)]
      rfl
    rw [hstep, ih fun v hv => h v (List.mem_cons_of_mem w hv), List.append_assoc]
    rfl

/-- What words lead to is made of elements. -/
theorem isElement_follow (hels : ∀ w ∈ els, IsElement sep here up w)
    (hws : ∀ w ∈ ws, IsWord sep w) : ∀ w ∈ follow here up els ws, IsElement sep here up w := by
  induction ws generalizing els with
  | nil => exact hels
  | cons v ws ih =>
    refine ih ?_ fun w hw => hws w (List.mem_cons_of_mem v hw)
    intro w hw
    unfold step at hw
    split_ifs at hw with hup hhere
    · exact hels w (List.dropLast_subset els hw)
    · exact hels w hw
    · rcases List.mem_append.mp hw with hw | hw
      · exact hels w hw
      · rw [List.mem_singleton.mp hw]
        exact ⟨hws v List.mem_cons_self, hhere, hup⟩

omit [DecidableEq α] in
theorem render_concat (els : List (List α)) (w : List α) :
    render sep (els ++ [w]) = (els.flatMap fun w => sep :: w) ++ sep :: w := by
  rw [render, if_neg (by simp), List.flatMap_append]
  simp

omit [DecidableEq α] in
theorem head?_render (els : List (List α)) : (render sep els).head? = some sep := by
  unfold render
  split_ifs with h
  · rfl
  · obtain ⟨w, ws, rfl⟩ := List.exists_cons_of_ne_nil h
    rfl

/-- The elements of a path are found in it again. -/
theorem words_render (h : ∀ w ∈ els, IsWord sep w) : words sep (render sep els) = els := by
  induction els using List.reverseRecOn with
  | nil =>
    rw [render, if_pos rfl, words_cons_sep, words_nil]
  | append_singleton els w ih =>
    have hels : words sep (els.flatMap fun w => sep :: w) = els := by
      by_cases hnil : els = []
      · rw [hnil]
        exact words_nil
      · have hrender := ih fun v hv => h v (List.mem_append_left _ hv)
        rwa [render, if_neg hnil] at hrender
    rw [render_concat, words_append_cons, hels, words_word (h w (by simp))]

/-- What is written down after resolving a path is resolved to itself. -/
theorem follow_words_render (h : ∀ w ∈ els, IsElement sep here up w) :
    follow here up [] (words sep (render sep els)) = els := by
  rw [words_render fun w hw => (h w hw).toIsWord, follow_of_isElement h, List.nil_append]

end Words
