import Inspector.Vfs.Table
import Inspector.Words.Resolve
import Mathlib.Data.List.TakeWhile

/-! # Path resolution

The tokens of a path are the words between its separators, and `parse_path` resolves them one after
the other against the current directory. The path is copied to a buffer of a fixed size first, and
the result to another one when it becomes the current directory.
-/

namespace Inspector

namespace Vfs

open Words

variable {F : Type*} {fsNull : F} {alloc : Streams.Allocator} {s s' : State F}
variable {els : List (List Char)} {path el : List Char} {realloc : Bool}

/-- What `.` and `..` are not, without separators. -/
abbrev Element (w : List Char) : Prop := IsElement '/' ['.'] ['.', '.'] w

/-- The lexical normalisation of a path relative to a directory. -/
def resolve (cwd path : List Char) : List Char :=
  render '/' (follow ['.'] ['.', '.'] []
    ((if path.head? = some '/' then [] else words '/' cwd) ++ words '/' path))

/-- An absolute path of elements. -/
def IsNormal (path : List Char) : Prop :=
  ∃ els, (∀ w ∈ els, Element w) ∧ path = render '/' els

/-- `strtok` finds the words. -/
theorem elements_eq (cs : List Char) (hel : '/' ∉ el) : elements el cs = words '/' (el ++ cs) := by
  induction cs generalizing el with
  | nil =>
    rw [elements, List.append_nil]
    split_ifs with hnil
    · rw [hnil, words_nil]
    · exact (words_word ⟨hel, hnil⟩).symm
  | cons c cs ih =>
    rw [elements]
    split_ifs with hc hnil
    · rw [ih List.not_mem_nil, hc, hnil]
      exact (words_cons_sep cs).symm
    · rw [ih List.not_mem_nil, hc, words_append_cons, words_word ⟨hel, hnil⟩]
      rfl
    · have hmem : '/' ∉ el ++ [c] := by
        rintro hmem
        rcases List.mem_append.mp hmem with hmem | hmem
        · exact hel hmem
        · exact hc (List.mem_singleton.mp hmem).symm
      rw [ih hmem, List.append_assoc]
      rfl

theorem upToLast_append (l : List Char) (hel : '/' ∉ el) :
    upToLast (l ++ '/' :: el) = l ++ ['/'] := by
  have hdrop : el.reverse.dropWhile (fun c => c ≠ '/') = [] := by
    rw [List.dropWhile_eq_nil_iff]
    intro c hc
    simpa using fun heq : c = '/' => hel (heq ▸ List.mem_reverse.mp hc)
  rw [upToLast, List.reverse_append, List.reverse_cons, List.append_assoc,
    List.dropWhile_append, hdrop]
  simp

/-- `..` takes the last element away. -/
theorem up_render (h : ∀ w ∈ els, IsWord '/' w) : up (render '/' els) = render '/' els.dropLast := by
  induction els using List.reverseRecOn with
  | nil => rfl
  | append_singleton els w _ =>
    have hlast := upToLast_append (els.flatMap fun w => '/' :: w) (h w (by simp)).not_mem
    rw [up, render_concat, hlast, List.dropLast_concat, List.dropLast_concat,
      if_neg (List.append_ne_nil_of_right_ne_nil _ (List.cons_ne_nil _ _)), render]
    by_cases hnil : els = []
    · rw [if_pos hnil, hnil]
      rfl
    · rw [if_neg hnil, if_neg]
      obtain ⟨v, vs, rfl⟩ := List.exists_cons_of_ne_nil hnil
      simp

/-- An element is resolved in place. -/
theorem walk_render (h : ∀ w ∈ els, IsWord '/' w) (el : List Char) :
    walk (render '/' els) el = render '/' (step ['.'] ['.', '.'] els el) := by
  rw [walk, step]
  split_ifs with hup hhere hlen
  · exact up_render h
  · rfl
  · have hnil : els = [] := by
      by_contra hnil
      obtain ⟨v, vs, rfl⟩ := List.exists_cons_of_ne_nil hnil
      have hv := List.length_pos_of_ne_nil (h v List.mem_cons_self).ne_nil
      rw [render, if_neg hnil, List.flatMap_cons, List.length_append, List.length_cons] at hlen
      omega
    rw [hnil]
    simp [render]
  · have hnil : els ≠ [] := by
      rintro rfl
      exact hlen rfl
    rw [render_concat, render, if_neg hnil]

theorem foldl_walk (hels : ∀ w ∈ els, Element w) {ws : List (List Char)}
    (hws : ∀ w ∈ ws, IsWord '/' w) :
    ws.foldl walk (render '/' els) = render '/' (follow ['.'] ['.', '.'] els ws) := by
  induction ws generalizing els with
  | nil => rfl
  | cons w ws ih =>
    have hrest := fun v hv => hws v (List.mem_cons_of_mem w hv)
    have hw : ∀ v ∈ [w], IsWord '/' v := by
      intro v hv
      rw [List.mem_singleton.mp hv]
      exact hws w List.mem_cons_self
    have hstep : ∀ v ∈ step ['.'] ['.', '.'] els w, Element v := isElement_follow hels hw
    rw [List.foldl_cons, walk_render fun v hv => (hels v hv).toIsWord, ih hstep hrest]
    rfl

theorem isNormal_resolve (hcwd : ∀ w ∈ words '/' s.cwd, Element w) (path : List Char) :
    IsNormal (resolve s.cwd path) := by
  refine ⟨_, isElement_follow (fun w hw => absurd hw List.not_mem_nil) ?_, rfl⟩
  intro w hw
  rcases List.mem_append.mp hw with hw | hw
  · split_ifs at hw
    · exact absurd hw List.not_mem_nil
    · exact (hcwd w hw).toIsWord
  · exact isWord_of_mem hw

theorem IsNormal.isElement (h : IsNormal path) : ∀ w ∈ words '/' path, Element w := by
  obtain ⟨els, hels, rfl⟩ := h
  rw [words_render fun w hw => (hels w hw).toIsWord]
  exact hels

theorem IsNormal.absolute (h : IsNormal path) : path.head? = some '/' := by
  obtain ⟨els, -, rfl⟩ := h
  exact head?_render els

/-- A normal path is its own normalisation, in any directory. -/
theorem IsNormal.resolve_eq (h : IsNormal path) (cwd : List Char) : resolve cwd path = path := by
  have habsolute := h.absolute
  obtain ⟨els, hels, rfl⟩ := h
  rw [resolve, if_pos habsolute, List.nil_append, follow_words_render hels]

theorem isNormal_root : IsNormal ['/'] :=
  ⟨[], fun _ hw => absurd hw List.not_mem_nil, rfl⟩

/-- `abspath` ends up as the lexical normalisation. -/
theorem State.abspath_eq (h : IsNormal s.cwd) (path : List Char) :
    s.abspath path = resolve s.cwd path := by
  have hwords : ∀ w ∈ words '/' path, IsWord '/' w := fun w hw => isWord_of_mem hw
  rw [abspath, elements_eq path List.not_mem_nil, List.nil_append, resolve]
  split_ifs
  · exact foldl_walk (fun w hw => absurd hw List.not_mem_nil) hwords
  · obtain ⟨els, hels, hcwd⟩ := h
    rw [hcwd, foldl_walk hels hwords, words_render fun w hw => (hels w hw).toIsWord, follow_append,
      follow_of_isElement hels, List.nil_append]

/-- Between two tokens `abspath` is shorter than its buffer. -/
theorem State.length_foldl_walk_lt (h : IsNormal s.cwd) {ws : List (List Char)}
    (hws : ws <+: elements [] path) :
    (ws.foldl walk (if path.head? = some '/' then ['/'] else s.cwd)).length < s.grown path := by
  obtain ⟨vs, hvs⟩ := hws
  have hsum := sum_elements [] path
  rw [← hvs, List.map_append, List.sum_append, List.length_nil] at hsum
  have hcwd : 0 < s.cwd.length := by
    obtain ⟨cs, hcs⟩ := List.head?_eq_some_iff.mp h.absolute
    rw [hcs]
    exact Nat.succ_pos _
  have hgrown : s.cwd.length + path.length + 2 ≤ s.grown path := by
    rw [grown]
    split_ifs with hlt
    · exact le_max_right _ _
    · exact Nat.le_of_not_lt hlt
  have hstart : (if path.head? = some '/' then ['/'] else s.cwd).length ≤ max 1 s.cwd.length := by
    split_ifs
    · exact le_max_left _ _
    · exact le_max_right _ _
  have hlen := length_foldl_walk_le hstart ws
  omega

/-- What `parse_path` is expected to do: it returns the lexical normalisation, which is absolute and
returned again for itself, and the buffers for the path, for `abspath` and for the current directory
are long enough. -/
structure Resolves (s : State F) (path : List Char) (realloc : Bool) (s' : State F) : Prop where
  parse : s.parsePath path realloc = some (resolve s.cwd path, s')
  absolute : (resolve s.cwd path).head? = some '/'
  fixed : ∀ realloc', ∃ s'',
    s'.parsePath (resolve s.cwd path) realloc' = some (resolve s.cwd path, s'')
  abspath : s.available path realloc → ∀ ws, ws <+: elements [] path →
    (ws.foldl walk (if path.head? = some '/' then ['/'] else s.cwd)).length < s'.maxlen
  cwd : (resolve s.cwd path).length < cwdLength

/-- The path fits where it is copied to, and its normalisation where the current directory is kept;
without a buffer for `abspath` it is normal itself. -/
def State.Fits (s : State F) (path : List Char) (realloc : Bool) : Prop :=
  (if s.available path realloc then path.length < cwdLength else IsNormal path) ∧
    (resolve s.cwd path).length < cwdLength

/-- A buffer that can be allocated. -/
theorem State.fits_of_realloc (hpath : path.length < cwdLength)
    (hcwd : (resolve s.cwd path).length < cwdLength) : s.Fits path true := by
  refine ⟨?_, hcwd⟩
  rwa [available, Bool.true_or, if_pos rfl]

theorem State.Fits.parse (hfits : s.Fits path realloc) (h : IsNormal s.cwd) :
    s.parsePath path realloc = some (resolve s.cwd path,
      { s with maxlen := if s.available path realloc then s.grown path else 0 }) := by
  obtain ⟨hpath, -⟩ := hfits
  rw [parsePath]
  split_ifs at hpath ⊢
  · rw [abspath_eq h]
  · rw [hpath.resolve_eq]

/-- A normal path that fits is returned as it is. -/
theorem State.parsePath_of_isNormal (hnormal : IsNormal path) (hlen : path.length < cwdLength)
    (h : IsNormal s.cwd) (realloc : Bool) : ∃ s', s.parsePath path realloc = some (path, s') := by
  have hfits : s.Fits path realloc := by
    refine ⟨?_, by rwa [hnormal.resolve_eq]⟩
    split_ifs
    · exact hlen
    · exact hnormal
  have hparse := hfits.parse h
  rw [hnormal.resolve_eq] at hparse
  exact ⟨_, hparse⟩

theorem State.resolves_iff (h : IsNormal s.cwd) (path : List Char) (realloc : Bool) :
    (∃ s', Resolves s path realloc s') ↔ s.Fits path realloc := by
  have hnormal := isNormal_resolve h.isElement path
  constructor
  · rintro ⟨s', hs'⟩
    refine ⟨?_, hs'.cwd⟩
    have hparse := hs'.parse
    rw [parsePath] at hparse
    split_ifs at hparse ⊢ with havailable hlen
    · exact hlen
    · obtain ⟨hpath, -⟩ := Prod.mk.inj (Option.some.inj hparse)
      rwa [hpath]
  · intro hfits
    refine ⟨_, hfits.parse h, hnormal.absolute, ?_, ?_, hfits.2⟩
    · exact parsePath_of_isNormal hnormal hfits.2 h
    · intro havailable ws hws
      rw [if_pos havailable]
      exact length_foldl_walk_lt h hws

/-- The calls: those of the mounts, and the others that resolve a path. -/
inductive Call (F : Type*)
  | table (op : Op F)
  | parse (path : List Char) (realloc : Bool)

/-- A call; none when an earlier one had no result. -/
def Call.exec (fsNull : F) (alloc : Streams.Allocator) (s : Option (State F)) :
    Call F → Option (State F)
  | .table op => Vfs.exec fsNull alloc s op
  | .parse path realloc => s.bind fun s => (s.parsePath path realloc).map Prod.snd

/-- The directories that are changed to fit. -/
def Call.Proceeds (o : Option (State F)) : Call F → Prop
  | .table (.chdir path realloc _) => ∀ s ∈ o, s.Fits path realloc
  | _ => True

theorem State.cwd_parsePath {q : List Char} (h : s.parsePath path realloc = some (q, s')) :
    s'.cwd = s.cwd := by
  rw [parsePath] at h
  split_ifs at h <;> cases h <;> rfl

theorem State.isNormal_mount {vfs : Option F} {mode : Mode} {calloc : Bool} (h : IsNormal s.cwd)
    (hs' : s.vfsMount alloc path vfs mode calloc = some s') : IsNormal s'.cwd := by
  rw [vfsMount] at hs'
  split_ifs at hs'
  · cases hs'
    exact h
  · obtain ⟨q, -, hq⟩ := Option.bind_eq_some_iff.mp hs'
    obtain ⟨t, -, rfl⟩ := Option.map_eq_some_iff.mp hq
    exact h
  · cases hs'
    exact h

theorem State.isNormal_unmount (h : IsNormal s.cwd) (hs' : s.vfsUnmount fsNull path = some s') :
    IsNormal s'.cwd := by
  rw [vfsUnmount] at hs'
  split_ifs at hs'
  · cases hs'
    rw [resetRoot]
    split_ifs
    · exact isNormal_root
    · exact h
  · obtain ⟨t, -, ht⟩ := Option.bind_eq_some_iff.mp hs'
    obtain ⟨p, -, hp⟩ := Option.bind_eq_some_iff.mp ht
    rw [free] at hp
    split_ifs at hp
    cases hp
    change IsNormal ((s.leave t).unlink t p).cwd
    rw [cwd_unlink, leave]
    split_ifs
    · exact isNormal_root
    · exact h

theorem State.isNormal_chdir {accepts : F → List Char → Bool} (h : IsNormal s.cwd)
    (hfits : s.Fits path realloc) (hs' : s.vfsChdir path realloc accepts = some s') :
    IsNormal s'.cwd := by
  obtain ⟨⟨q, s₁⟩, hparse, hget⟩ := Option.bind_eq_some_iff.mp hs'
  have hcwd := cwd_parsePath hparse
  rw [hfits.parse h] at hparse
  obtain ⟨rfl, -⟩ := Prod.mk.inj (Option.some.inj hparse)
  obtain ⟨mount, -, hmount⟩ := Option.bind_eq_some_iff.mp hget
  obtain ⟨vfs, -, hvfs⟩ := Option.bind_eq_some_iff.mp hmount
  split_ifs at hvfs
  · cases hvfs
    exact isNormal_resolve h.isElement path
  · cases hvfs
    rwa [hcwd]

/-- In every run in which the directories that are changed to fit, the current directory is normal,
and `parse_path` does what is expected of it if and only if the path fits. -/
theorem parsePath_resolves (fsNull : F) (alloc : Streams.Allocator) (calls : List (Call F))
    (h : Transition.Along (Call.exec fsNull alloc) Call.Proceeds (some (State.init fsNull)) calls) :
    ∀ s ∈ calls.foldl (Call.exec fsNull alloc) (some (State.init fsNull)),
      IsNormal s.cwd ∧
      ∀ path realloc, (∃ s', Resolves s path realloc s') ↔ s.Fits path realloc := by
  let I : Option (State F) → Prop := fun o => ∀ s ∈ o, IsNormal s.cwd
  have hstep : ∀ o call, Call.Proceeds o call → I o → I (Call.exec fsNull alloc o call) := by
    intro o call hcall ho s' hs'
    cases o with
    | none =>
      cases call with
      | table op => cases op <;> cases hs'
      | parse path realloc => cases hs'
    | some s =>
      have hs := ho s rfl
      cases call with
      | table op =>
        cases op with
        | mount path vfs mode calloc => exact State.isNormal_mount hs hs'
        | unmount path => exact State.isNormal_unmount hs hs'
        | chdir path realloc accepts => exact State.isNormal_chdir hs (hcall s rfl) hs'
      | parse path realloc =>
        obtain ⟨p, hp, rfl⟩ := Option.map_eq_some_iff.mp hs'
        rwa [State.cwd_parsePath hp]
  have hinit : I (some (State.init fsNull)) := by
    rintro s ⟨⟩
    exact isNormal_root
  intro s hs
  have hnormal := Transition.forall_states hstep hinit h _ Transition.foldl_mem_states s hs
  exact ⟨hnormal, State.resolves_iff hnormal⟩

/-- The directory of a card is entered. -/
def entered : List (Call Unit) :=
  [.table (.mount ['/', 's', 'd'] (some ()) {} true),
    .table (.chdir ['/', '.', '/', 's', 'd', '/'] true fun _ _ => true)]

theorem parsePath_resolves_entered :
    ∃ s, entered.foldl (Call.exec () Streams.firstFit) (some (State.init ())) = some s ∧
      s.cwd = ['/', 's', 'd'] ∧
      ∃ s', Resolves s ['.', '.', '/', 'f'] true s' := by
  have hproceeds : Transition.Along (Call.exec () Streams.firstFit) Call.Proceeds
      (some (State.init ())) entered := by
    refine ⟨trivial, ?_, trivial⟩
    rintro s ⟨⟩
    exact State.fits_of_realloc (by decide) (by decide)
  have hentered := parsePath_resolves () Streams.firstFit entered hproceeds
  refine ⟨_, rfl, rfl, ?_⟩
  exact ((hentered _ rfl).2 _ _).mpr (State.fits_of_realloc (by decide) (by decide))

/-- A hundred characters are copied to where there is no room for their end. -/
theorem not_parsePath_resolves :
    ¬ ∃ s', Resolves (State.init ()) (List.replicate 100 'a') true s' := by
  rintro ⟨s', hs'⟩
  cases hs'.parse

end Vfs

end Inspector
