import Inspector.Vfs.Mounts
import Inspector.Transition.Run
import Mathlib.Data.List.Find
import Mathlib.Algebra.GroupWithZero.Nat

/-! # The mount table

In every run the mounts stay linked behind the root. The lookup finds the first mount whose
directory is the path, otherwise the first one whose path begins it, otherwise the root; whatever it
finds is what is unmounted.
-/

namespace Inspector

namespace Vfs

variable {F : Type*} {s s' : State F} {l l' : List ℕ} {q : List Char} {p : ℕ → Bool} {i t : ℕ}

namespace State

/-- What a mount is, apart from its place in the list. -/
def data (s : State F) (i : ℕ) : List Char × Option F × Mode :=
  ((s.nodes i).path, (s.nodes i).vfs, (s.nodes i).mode)

theorem path_congr (h : s'.data i = s.data i) : s'.path i = s.path i := congrArg Prod.fst h

@[simp] theorem next_setNext (i : ℕ) (v : Option ℕ) :
    (s.setNext i v).next = Function.update s.next i v := by
  ext1 j
  by_cases h : j = i <;> simp [next, setNext, setNode, h]

@[simp] theorem data_setNext (i : ℕ) (v : Option ℕ) : (s.setNext i v).data = s.data := by
  ext1 j
  by_cases h : j = i <;> simp [data, setNext, setNode, h]

@[simp] theorem next_setRoot (vfs : Option F) (mode : Mode) :
    (s.setRoot vfs mode).next = s.next := by
  ext1 j
  by_cases h : j = 0 <;> simp [next, setRoot, setNode, h]

@[simp] theorem path_setRoot (vfs : Option F) (mode : Mode) :
    (s.setRoot vfs mode).path = s.path := by
  ext1 j
  by_cases h : j = 0 <;> simp [path, setRoot, setNode, h]

/-- The mounts behind the root. -/
def mounts (s : State F) : List ℕ := Linked.collect s.next s.bound (s.next 0)

/-- What the lookup of a path is about: the mount whose directory it is, otherwise the first one
whose path begins it, otherwise the root. -/
def owner (s : State F) (path : List Char) : ℕ :=
  if path.head? = some '/' then
    if path = ['/'] then 0
    else ((s.mounts.find? fun i => s.path i = path ++ ['/']).or
      (s.mounts.find? fun i => s.path i <+: path)).getD 0
  else s.cwdmount

end State

/-- The mounts are linked behind the root and are those allocated, their paths end with a separator,
and the current directory is on one of them or on the root. -/
structure Mounted (s : State F) (l : List ℕ) : Prop where
  chain : Linked.Chain s.next (some 0) (0 :: l)
  nodup : (0 :: l).Nodup
  allocated : l.Perm s.allocated
  root : s.path 0 = ['/']
  ends : ∀ i ∈ l, (s.path i).getLast? = some '/'
  cwd : s.cwdmount ∈ 0 :: l

theorem mounted_init (fsNull : F) : Mounted (State.init fsNull) [] := by
  refine ⟨.cons .nil, List.nodup_singleton 0, .refl [], rfl, nofun, List.mem_singleton_self 0⟩

theorem Mounted.congr (h : Mounted s l) (hnext : s'.next = s.next) (hpath : s'.path = s.path)
    (hallocated : s'.allocated = s.allocated) (hcwd : s'.cwdmount ∈ 0 :: l) :
    Mounted s' l := by
  refine ⟨?_, h.nodup, ?_, ?_, ?_, hcwd⟩
  · rw [hnext]
    exact h.chain
  · rw [hallocated]
    exact h.allocated
  · rw [hpath]
    exact h.root
  · rw [hpath]
    exact h.ends

theorem Mounted.behind (h : Mounted s l) : Linked.Chain s.next (s.next 0) l :=
  (Linked.chain_cons_iff.mp h.chain).2

theorem Mounted.length_lt (h : Mounted s l) : l.length < s.bound := by
  rw [State.bound, h.allocated.length_eq]
  exact Nat.lt_succ_self _

theorem Mounted.mounts_eq (h : Mounted s l) : s.mounts = l := h.behind.collect_eq h.length_lt.le

theorem Mounted.not_mem (h : Mounted s l) : 0 ∉ l := (List.nodup_cons.mp h.nodup).1

theorem Mounted.find_eq (h : Mounted s l) (p : ℕ → Bool) : s.find p = some (l.find? p) :=
  Linked.search_map p h.behind h.length_lt.le none

theorem State.isDir_eq (h : (s.path i).getLast? = some '/') :
    s.isDir q i = decide (s.path i = q ++ ['/']) := by
  obtain ⟨m, hm⟩ := List.getLast?_eq_some_iff.mp h
  rw [isDir, hm, List.length_append, List.length_singleton, Nat.add_sub_cancel,
    List.take_left' rfl, decide_eq_decide, List.append_left_inj]
  constructor
  · rintro ⟨hlen, htake⟩
    rwa [hlen, List.take_length] at htake
  · rintro rfl
    exact ⟨rfl, List.take_length.symm⟩

theorem State.begins_eq : s.begins q i = decide (s.path i <+: q) := by
  rw [begins, List.take_length, decide_eq_decide, List.prefix_iff_eq_take]

/-- The lookup ends, and finds what it is about. -/
theorem Mounted.getMount_eq (h : Mounted s l) (q : List Char) : s.getMount q = some (s.owner q) := by
  rw [State.getMount, State.owner]
  split_ifs with hq hroot
  · rw [State.pathIsMountDir, if_pos hroot]
    rfl
  · have hdir : s.find (s.isDir q) = some (l.find? fun i => s.path i = q ++ ['/']) := by
      rw [h.find_eq, List.find?_congr fun i hi => State.isDir_eq (h.ends i hi)]
    have hbegins : s.find (s.begins q) = some (l.find? fun i => s.path i <+: q) := by
      rw [h.find_eq, List.find?_congr fun i _ => State.begins_eq]
    rw [State.pathIsMountDir, if_neg hroot, hdir, hbegins, h.mounts_eq, Option.bind_some]
    cases l.find? fun i => s.path i = q ++ ['/'] <;> rfl
  · rfl

/-- The root is mounted anew. -/
theorem Mounted.setRoot (h : Mounted s l) (vfs : Option F) (mode : Mode) :
    Mounted (s.setRoot vfs mode) l :=
  h.congr (State.next_setRoot vfs mode) (State.path_setRoot vfs mode) rfl h.cwd

theorem Mounted.resetRoot (h : Mounted s l) (fsNull : F) : Mounted (s.resetRoot fsNull) l := by
  rw [State.resetRoot]
  split_ifs
  · exact (h.setRoot (some fsNull) rootMode).congr rfl rfl rfl h.cwd
  · exact h.setRoot (some fsNull) rootMode

theorem getLast?_normal (q : List Char) : (normal q).getLast? = some '/' := by
  rw [normal]
  split_ifs with h
  · exact h
  · exact List.getLast?_concat

theorem State.next_link (path : List Char) (vfs : Option F) (mode : Mode) :
    (s.link i t path vfs mode).next =
      Function.update (Function.update s.next i none) t (some i) := by
  rw [link, next_setNext]
  congr 1
  ext1 j
  by_cases h : j = i <;> simp [next, setNode, h]

theorem State.data_link (path : List Char) (vfs : Option F) (mode : Mode) :
    (s.link i t path vfs mode).data = Function.update s.data i (path, vfs, mode) := by
  rw [link, data_setNext]
  ext1 j
  by_cases h : j = i <;> simp [data, setNode, h]

/-- A mount is added behind the last one. -/
theorem Mounted.link (h : Mounted s l) (hlast : 0 :: l = l' ++ [t]) (hi : i ∉ 0 :: l)
    (hq : q.getLast? = some '/') (vfs : Option F) (mode : Mode) :
    Mounted (s.link i t q vfs mode) (l ++ [i]) := by
  obtain ⟨h0, hil⟩ := not_or.mp (List.mem_cons.not.mp hi)
  have hchain := h.chain
  have hnodup := h.nodup
  rw [hlast] at hchain hnodup hi
  have hnext : s.next t = none := Linked.chain_nil_iff.mp hchain.suffix
  have hcons : 0 :: (l ++ [i]) = l' ++ t :: [i] := by
    rw [← List.cons_append, hlast, List.append_assoc]
    rfl
  have hpath : ∀ j, j ≠ i → (s.link i t q vfs mode).path j = s.path j := by
    intro j hj
    apply State.path_congr
    rw [State.data_link, Function.update_of_ne hj]
  refine ⟨?_, ?_, ?_, ?_, ?_, ?_⟩
  · rw [State.next_link, hcons, ← hnext]
    exact hchain.insert hnodup hi
  · rw [← List.cons_append, hlast]
    rw [← List.concat_eq_append]
    exact hnodup.concat hi
  · exact (List.perm_append_singleton i l).trans (h.allocated.cons i)
  · rw [hpath 0 (Ne.symm h0)]
    exact h.root
  · intro j hj
    rcases List.mem_append.mp hj with hj | hj
    · rw [hpath j fun he => hil (he ▸ hj)]
      exact h.ends j hj
    · obtain rfl := List.mem_singleton.mp hj
      have hself : (s.link j t q vfs mode).data j = (q, vfs, mode) := by
        rw [State.data_link, Function.update_self]
      exact (congrArg (fun d => d.1.getLast?) hself).trans hq
  · rw [← List.cons_append]
    exact List.mem_append_left [i] h.cwd

/-- A mount that has a path of sufficient length is put at the end of the list. -/
theorem Mounted.vfsMount (h : Mounted s l) (alloc : Streams.Allocator) {path : List Char}
    (hne : path ≠ []) (hroot : path ≠ ['/']) (hfits : (normal path).length < mountPathLen)
    (vfs : Option F) (mode : Mode) :
    ∃ s' i, s.vfsMount alloc path vfs mode true = some s' ∧ Mounted s' (l ++ [i]) := by
  obtain ⟨l', t, hlast, hseek⟩ := Linked.seek_last h.chain h.length_lt
  have hi : alloc.malloc (0 :: s.allocated) ∉ 0 :: l := fun hm =>
    alloc.fresh _ ((h.allocated.cons 0).subset hm)
  refine ⟨_, _, ?_, h.link hlast hi (getLast?_normal path) vfs mode⟩
  rw [State.vfsMount, if_neg hroot, if_pos rfl, State.mountPath, if_pos ⟨hne, hfits⟩,
    Option.bind_some, hseek]
  rfl

theorem Mounted.leave (h : Mounted s l) (t : ℕ) : Mounted (s.leave t) l := by
  rw [State.leave]
  split_ifs
  · exact h.congr rfl rfl rfl List.mem_cons_self
  · exact h

theorem State.data_unlink (t p : ℕ) : (s.unlink t p).data = s.data := by
  rw [unlink]
  split_ifs
  · exact data_setNext p (s.next t)
  · rfl

theorem State.allocated_unlink (t p : ℕ) : (s.unlink t p).allocated = s.allocated := by
  rw [unlink]
  split_ifs <;> rfl

theorem State.cwdmount_unlink (t p : ℕ) : (s.unlink t p).cwdmount = s.cwdmount := by
  rw [unlink]
  split_ifs <;> rfl

theorem State.cwd_unlink (t p : ℕ) : (s.unlink t p).cwd = s.cwd := by
  rw [unlink]
  split_ifs <;> rfl

/-- The mount in front of another one is found. -/
theorem Mounted.seek_eq (h : Mounted s l) (ht : t ∈ l) :
    ∃ l₁ p m, 0 :: l = l₁ ++ p :: t :: m ∧
      Linked.seek s.next (fun i => i = t) s.bound 0 = some p := by
  obtain ⟨l₁, p, l₂, heq, hseek, hbefore, hafter⟩ :=
    Linked.seek_eq (fun i => decide (i = t)) h.chain h.length_lt
  have hfront : t ∉ (l₁ ++ [p]).tail := fun hm =>
    absurd rfl (of_decide_eq_false (hbefore t hm))
  have htail : l = (l₁ ++ [p]).tail ++ l₂ := by
    cases l₁ with
    | nil => exact (List.cons_eq_cons.mp heq).2
    | cons a l₁ =>
      rw [(List.cons_eq_cons.mp heq).2, List.cons_append, List.tail_cons, List.append_assoc]
      rfl
  have ht₂ : t ∈ l₂ := (List.mem_append.mp (htail ▸ ht)).resolve_left hfront
  cases l₂ with
  | nil => cases ht₂
  | cons b m =>
    obtain rfl : b = t := of_decide_eq_true (hafter b rfl)
    exact ⟨l₁, p, m, heq, hseek⟩

/-- A mount is taken out of the list. -/
theorem Mounted.unlink {l₁ m : List ℕ} {p : ℕ} (h : Mounted s l) (ht : t ∈ l)
    (hcwd : s.cwdmount ≠ t) (heq : 0 :: l = l₁ ++ p :: t :: m) :
    Mounted { s.unlink t p with allocated := s.allocated.erase t } (l.erase t) := by
  have hne : (0 : ℕ) ≠ t := fun he => h.not_mem (he ▸ ht)
  have herase : 0 :: l.erase t = l₁ ++ p :: m := by
    rw [← List.erase_cons_tail (by simpa using hne), heq]
    exact Linked.erase_eq (heq ▸ h.nodup)
  have hnext : s.next p = some t :=
    (Linked.chain_cons_iff.mp (heq ▸ h.chain : Linked.Chain s.next _ _).suffix).1
  have hdata : (s.unlink t p).data = s.data := State.data_unlink t p
  have hpath : ∀ i, (s.unlink t p).path i = s.path i := fun i =>
    State.path_congr (congrFun hdata i)
  refine ⟨?_, ?_, ?_, ?_, ?_, ?_⟩
  · have hunlink : (s.unlink t p).next = Function.update s.next p (s.next t) := by
      rw [State.unlink, if_pos hnext, State.next_setNext]
    rw [herase]
    change Linked.Chain (s.unlink t p).next _ _
    rw [hunlink]
    exact (heq ▸ h.chain : Linked.Chain s.next _ _).unlink (heq ▸ h.nodup)
  · exact h.nodup.sublist (List.Sublist.cons_cons 0 List.erase_sublist)
  · exact h.allocated.erase t
  · exact (hpath 0).trans h.root
  · intro i hi
    exact (congrArg List.getLast? (hpath i)).trans (h.ends i (List.mem_of_mem_erase hi))
  · change (s.unlink t p).cwdmount ∈ _
    rw [State.cwdmount_unlink]
    rcases List.mem_cons.mp h.cwd with hc | hc
    · rw [hc]
      exact List.mem_cons_self
    · exact List.mem_cons_of_mem 0 ((List.mem_erase_of_ne hcwd).mpr hc)

/-- What is removed is a mount of the list; the others, and the current directory unless it was on
the one that is removed, are as before. -/
theorem Mounted.remove (h : Mounted s l) (ht : t ∈ l) :
    ∃ s', s.remove t = some s' ∧ Mounted s' (l.erase t) ∧ s'.data = s.data ∧
      s'.cwdmount = (s.leave t).cwdmount ∧ s'.cwd = (s.leave t).cwd := by
  have hleave := h.leave t
  obtain ⟨l₁, p, m, heq, hseek⟩ := hleave.seek_eq ht
  have hcwd : (s.leave t).cwdmount ≠ t := by
    rw [State.leave]
    split_ifs with hc
    · exact fun he : 0 = t => h.not_mem (he ▸ ht)
    · exact fun he => hc he.symm
  have hmem : t ∈ ((s.leave t).unlink t p).allocated := by
    rw [State.allocated_unlink]
    exact hleave.allocated.subset ht
  refine ⟨_, ?_, hleave.unlink ht hcwd heq, ?_, State.cwdmount_unlink t p, State.cwd_unlink t p⟩
  · rw [State.remove, hseek, Option.bind_some, State.free, if_pos hmem, State.allocated_unlink]
  · have hsame : (s.leave t).data = s.data := by
      rw [State.leave]
      split_ifs <;> rfl
    exact (State.data_unlink t p).trans hsame

/-- The root is not freed. -/
theorem Mounted.remove_root (h : Mounted s l) : s.remove 0 = none := by
  rw [State.remove, Option.bind_eq_none_iff]
  intro p _
  rw [State.free, if_neg]
  rw [State.allocated_unlink]
  exact fun hm => h.not_mem ((h.leave 0).allocated.symm.subset hm)

/-- The lookup finds what is mounted at a path. With a separator at the end of the path nothing may
be mounted at the path with another one, and no mount listed earlier may begin the path. -/
def State.Found (s : State F) (path : List Char) : Prop :=
  if path.getLast? = some '/' then
    (∀ i ∈ s.mounts, s.path i ≠ path ++ ['/']) ∧
      (s.mounts.find? fun i => s.path i <+: path).map s.path = some path
  else ∃ i ∈ s.mounts, s.path i = path ++ ['/']

theorem Mounted.owner_of_dir (h : Mounted s l) (hq : q.head? = some '/') (hroot : q ≠ ['/'])
    (hi : i ∈ l) (hpath : s.path i = q ++ ['/']) :
    s.owner q ∈ l ∧ s.path (s.owner q) = q ++ ['/'] := by
  have hsome : (l.find? fun i => s.path i = q ++ ['/']).isSome :=
    List.find?_isSome.mpr ⟨i, hi, decide_eq_true hpath⟩
  obtain ⟨t, ht⟩ := Option.isSome_iff_exists.mp hsome
  have howner : s.owner q = t := by
    rw [State.owner, if_pos hq, if_neg hroot, h.mounts_eq, ht]
    rfl
  have htrue : decide (s.path t = q ++ ['/']) = true := by
    simpa using List.find?_some ht
  rw [howner]
  exact ⟨List.mem_of_find?_eq_some ht, of_decide_eq_true htrue⟩

theorem Mounted.owner_of_begins (h : Mounted s l) (hq : q.head? = some '/') (hroot : q ≠ ['/'])
    (hdir : ∀ i ∈ l, s.path i ≠ q ++ ['/']) :
    s.owner q = (l.find? fun i => s.path i <+: q).getD 0 := by
  have hnone : (l.find? fun i => s.path i = q ++ ['/']) = none :=
    List.find?_eq_none.mpr fun i hi he => hdir i hi (of_decide_eq_true he)
  rw [State.owner, if_pos hq, if_neg hroot, h.mounts_eq, hnone, Option.none_or]

theorem Mounted.found_iff (h : Mounted s l) (hq : q.head? = some '/') (hroot : q ≠ ['/']) :
    s.Found q ↔ s.owner q ∈ l ∧ s.path (s.owner q) = normal q := by
  rw [State.Found, normal, h.mounts_eq]
  split_ifs with hlast
  · constructor
    · rintro ⟨hdir, hfind⟩
      obtain ⟨t, ht, hpath⟩ := Option.map_eq_some_iff.mp hfind
      rw [h.owner_of_begins hq hroot hdir, ht]
      exact ⟨List.mem_of_find?_eq_some ht, hpath⟩
    · rintro ⟨hmem, hpath⟩
      have hdir : ∀ i ∈ l, s.path i ≠ q ++ ['/'] := by
        intro i hi he
        have hself := (h.owner_of_dir hq hroot hi he).2
        rw [hpath] at hself
        exact List.cons_ne_nil _ _ (List.self_eq_append_right.mp hself)
      refine ⟨hdir, ?_⟩
      have howner := h.owner_of_begins hq hroot hdir
      cases hfind : l.find? fun i => s.path i <+: q with
      | none =>
        rw [howner, hfind] at hmem
        exact absurd hmem h.not_mem
      | some t =>
        rw [howner, hfind] at hpath
        exact congrArg some hpath
  · constructor
    · rintro ⟨i, hi, hpath⟩
      exact h.owner_of_dir hq hroot hi hpath
    · rintro ⟨hmem, hpath⟩
      exact ⟨_, hmem, hpath⟩

/-- The first node that meets a condition is the first one that meets a stronger one. -/
theorem erase_find {p' : ℕ → Bool} (hp : ∀ i, p' i = true → p i = true) (hfind : l.find? p = some t)
    (ht : p' t = true) : l.erase t = l.eraseP p' := by
  induction l with
  | nil => cases hfind
  | cons a l ih =>
    rw [List.find?_cons] at hfind
    cases ha : p a with
    | true =>
      rw [ha] at hfind
      obtain rfl := Option.some.inj hfind
      rw [List.erase_cons_head, List.eraseP_cons_of_pos ht]
    | false =>
      rw [ha] at hfind
      have hne : a ≠ t := by
        rintro rfl
        rw [hp a ht] at ha
        cases ha
      have hneg : ¬p' a = true := fun h => Bool.false_ne_true (ha.symm.trans (hp a h))
      rw [List.erase_cons_tail (by simpa using hne), List.eraseP_cons_of_neg hneg, ih hfind]

/-- What is found at a path is the first mount there. -/
theorem Mounted.erase_owner (h : Mounted s l) (hq : q.head? = some '/') (hroot : q ≠ ['/'])
    (hfound : s.Found q) :
    l.erase (s.owner q) = l.eraseP fun i => s.path i = normal q := by
  have hpath := ((h.found_iff hq hroot).mp hfound).2
  rw [State.Found, h.mounts_eq] at hfound
  split_ifs at hfound with hlast
  · obtain ⟨hdir, hfind⟩ := hfound
    obtain ⟨t, ht, -⟩ := Option.map_eq_some_iff.mp hfind
    have howner := h.owner_of_begins hq hroot hdir
    rw [ht] at howner
    change s.owner q = t at howner
    rw [howner] at hpath ⊢
    apply erase_find ?_ ht (decide_eq_true hpath)
    intro i hi
    have hi' : s.path i = normal q := of_decide_eq_true hi
    rw [normal, if_pos hlast] at hi'
    exact decide_eq_true (hi' ▸ List.prefix_refl _)
  · obtain ⟨i, hi, hdir⟩ := hfound
    have hsome : (l.find? fun i => s.path i = q ++ ['/']).isSome :=
      List.find?_isSome.mpr ⟨i, hi, decide_eq_true hdir⟩
    obtain ⟨t, ht⟩ := Option.isSome_iff_exists.mp hsome
    have howner : s.owner q = t := by
      rw [State.owner, if_pos hq, if_neg hroot, h.mounts_eq, ht]
      rfl
    rw [howner] at hpath ⊢
    apply erase_find ?_ ht (decide_eq_true hpath)
    intro i hi
    have hi' : s.path i = normal q := of_decide_eq_true hi
    rw [normal, if_neg hlast] at hi'
    exact decide_eq_true hi'

section Length

theorem sum_elements : ∀ el cs : List Char,
    ((elements el cs).map fun e => e.length + 1).sum ≤ el.length + 1 + cs.length
  | el, [] => by
      rw [elements]
      split_ifs <;> simp
  | el, c :: cs => by
      have hnil := sum_elements [] cs
      have hcons := sum_elements (el ++ [c]) cs
      simp only [List.length_nil, List.length_append, List.length_singleton] at hnil hcons
      rw [elements, List.length_cons]
      split_ifs
      · omega
      · rw [List.map_cons, List.sum_cons]
        omega
      · omega

theorem length_upToLast_le (abspath : List Char) : (upToLast abspath).length ≤ abspath.length := by
  rw [upToLast, List.length_reverse, ← @List.length_reverse _ abspath]
  exact (List.dropWhile_sublist _).length_le

theorem length_up_le (abspath : List Char) : (up abspath).length ≤ abspath.length := by
  have hlast := length_upToLast_le abspath
  rw [up]
  split_ifs
  · exact le_rfl
  · exact hlast
  · exact List.length_dropLast.le.trans ((Nat.sub_le _ _).trans hlast)

theorem length_walk_le {abspath : List Char} {n : ℕ} (h : abspath.length ≤ max 1 n)
    (el : List Char) : (walk abspath el).length ≤ max 1 (n + (el.length + 1)) := by
  have hup := length_up_le abspath
  rw [walk]
  split_ifs
  · omega
  · omega
  · rw [List.length_append]
    omega
  · rw [List.length_append, List.length_cons]
    omega

theorem length_foldl_walk_le {abspath : List Char} {n : ℕ} (h : abspath.length ≤ max 1 n)
    (els : List (List Char)) :
    (els.foldl walk abspath).length ≤ max 1 (n + (els.map fun e => e.length + 1).sum) := by
  induction els generalizing abspath n with
  | nil => exact h
  | cons el els ih =>
    rw [List.map_cons, List.sum_cons, ← Nat.add_assoc]
    exact ih (length_walk_le h el)

/-- An absolute path does not get longer. -/
theorem State.length_abspath_le (hq : q.head? = some '/') : (s.abspath q).length ≤ q.length := by
  obtain ⟨cs, rfl⟩ := List.head?_eq_some_iff.mp hq
  have hstart : (['/'] : List Char).length ≤ max 1 0 := le_rfl
  have hlen := length_foldl_walk_le hstart (elements [] ('/' :: cs))
  have hsum := sum_elements [] cs
  have hskip : elements [] ('/' :: cs) = elements [] cs := rfl
  rw [State.abspath, if_pos hq]
  rw [hskip] at hlen ⊢
  rw [List.length_cons]
  rw [List.length_nil] at hsum
  omega

end Length

namespace Op

/-- The path of a call is absolute. -/
def Absolute : Op F → Prop
  | .mount path _ _ _ => path.head? = some '/'
  | .unmount path => path.head? = some '/'
  | .chdir path _ _ => path.head? = some '/'

end Op

/-- What `parse_path` returns. -/
def State.parsed (s : State F) (path : List Char) (realloc : Bool) : List Char :=
  if s.available path realloc then s.abspath path else path

/-- The condition on a call: a path fits where it is copied to, what is unmounted is found, and a
directory is looked up in a file system. -/
def State.Sound (s : State F) : Op F → Prop
  | .mount path _ _ calloc =>
    path = ['/'] ∨ calloc = false ∨ (normal path).length < mountPathLen
  | .unmount path => path = ['/'] ∨ s.Found path
  | .chdir path realloc accepts =>
    (s.available path realloc → path.length < cwdLength) ∧
      ∃ fs, (s.nodes (s.owner (s.parsed path realloc))).vfs = some fs ∧
        (accepts fs (s.getFilename (s.owner (s.parsed path realloc)) (s.parsed path realloc)) →
          path.length < cwdLength)

/-- What is expected of unmounting: the first mount at the path is taken out of the list, nothing
changes when there is none, and the current directory is left only if it was on that mount. -/
structure Unmounts (s s' : State F) (path : List Char) : Prop where
  mounts : s'.mounts = s.mounts.eraseP fun i => s.path i = normal path
  data : s'.data = s.data
  same : (∀ i ∈ s.mounts, s.path i ≠ normal path) → s' = s
  cwd : s.cwdmount ∈ 0 :: s'.mounts → s'.cwdmount = s.cwdmount ∧ s'.cwd = s.cwd

/-- What is expected of a call. Nothing but unmounting takes a mount out of the list. -/
def Expected (s s' : State F) : Op F → Prop
  | .mount _ _ _ _ => s.mounts <+: s'.mounts
  | .unmount path => if path = ['/'] then s'.mounts = s.mounts else Unmounts s s' path
  | .chdir _ _ _ => s'.mounts = s.mounts

/-- A call has a result, which is as expected and has its mounts linked. -/
def Meets (fsNull : F) (alloc : Streams.Allocator) (s : State F) (op : Op F) : Prop :=
  ∃ s', exec fsNull alloc (some s) op = some s' ∧ Mounted s' s'.mounts ∧ Expected s s' op

variable {fsNull : F} {alloc : Streams.Allocator}

theorem Mounted.meets (h' : Mounted s' l') {op : Op F}
    (hexec : exec fsNull alloc (some s) op = some s') (hexpected : Expected s s' op) :
    Meets fsNull alloc s op := by
  refine ⟨s', hexec, ?_, hexpected⟩
  rw [h'.mounts_eq]
  exact h'

/-- Mounting goes well if and only if the path fits. -/
theorem Mounted.meets_mount (h : Mounted s l) {path : List Char} (hq : path.head? = some '/')
    (vfs : Option F) (mode : Mode) (calloc : Bool) :
    Meets fsNull alloc s (.mount path vfs mode calloc) ↔
      s.Sound (.mount path vfs mode calloc) := by
  by_cases hroot : path = ['/']
  · refine iff_of_true ?_ (.inl hroot)
    have h' := h.setRoot vfs mode
    refine h'.meets (if_pos hroot) ?_
    have hmounts : s.mounts = (s.setRoot vfs mode).mounts := h.mounts_eq.trans h'.mounts_eq.symm
    exact ⟨[], (List.append_nil _).trans hmounts⟩
  · cases calloc with
    | false =>
      refine iff_of_true ?_ (.inr (.inl rfl))
      exact h.meets (if_neg hroot) (List.prefix_refl s.mounts)
    | true =>
      have hne : path ≠ [] := by
        rintro rfl
        cases hq
      constructor
      · rintro ⟨s', hexec, -⟩
        right
        right
        by_contra hlong
        rw [exec, Option.bind_some, State.vfsMount, if_neg hroot, if_pos rfl, State.mountPath,
          if_neg fun hfits => hlong hfits.2] at hexec
        cases hexec
      · rintro (hr | hc | hfits)
        · exact absurd hr hroot
        · cases hc
        · obtain ⟨s', i, hexec, h'⟩ := h.vfsMount alloc hne hroot hfits vfs mode
          refine h'.meets hexec ?_
          rw [Expected, h.mounts_eq, h'.mounts_eq]
          exact List.prefix_append l [i]

theorem Mounted.owner_mem (h : Mounted s l) (q : List Char) : s.owner q ∈ 0 :: l := by
  rw [State.owner]
  split_ifs
  · exact List.mem_cons_self
  · rw [h.mounts_eq]
    cases hdir : l.find? fun i => s.path i = q ++ ['/'] with
    | some t => exact List.mem_cons_of_mem 0 (List.mem_of_find?_eq_some hdir)
    | none =>
      cases hbegins : l.find? fun i => s.path i <+: q with
      | some t => exact List.mem_cons_of_mem 0 (List.mem_of_find?_eq_some hbegins)
      | none => exact List.mem_cons_self
  · exact h.cwd

theorem State.parsePath_eq {path : List Char} {realloc : Bool}
    (hfits : s.available path realloc → path.length < cwdLength) :
    ∃ n, s.parsePath path realloc = some (s.parsed path realloc, { s with maxlen := n }) := by
  rw [parsePath, parsed]
  split_ifs with ha hlen
  · exact ⟨_, rfl⟩
  · exact absurd (hfits ha) hlen
  · exact ⟨0, rfl⟩

theorem State.length_parsed_le {path : List Char} (hq : path.head? = some '/') (realloc : Bool) :
    (s.parsed path realloc).length ≤ path.length := by
  rw [parsed]
  split_ifs
  · exact length_abspath_le hq
  · exact le_rfl

/-- The directory that is looked up, in terms of the mounts before the call. -/
theorem Mounted.exec_chdir (fsNull : F) (alloc : Streams.Allocator) (h : Mounted s l)
    {path : List Char} {realloc : Bool} (accepts : F → List Char → Bool)
    (hfits : s.available path realloc → path.length < cwdLength) :
    ∃ s₁ : State F, Mounted s₁ l ∧ exec fsNull alloc (some s) (.chdir path realloc accepts) =
      (s.nodes (s.owner (s.parsed path realloc))).vfs.bind fun vfs =>
        if accepts vfs (s.getFilename (s.owner (s.parsed path realloc)) (s.parsed path realloc)) then
          if (s.parsed path realloc).length < cwdLength then
            some { s₁ with
              cwd := s.parsed path realloc
              cwdmount := s.owner (s.parsed path realloc) }
          else none
        else some s₁ := by
  obtain ⟨n, hparse⟩ := State.parsePath_eq hfits
  have h₁ : Mounted { s with maxlen := n } l := h.congr rfl rfl rfl h.cwd
  refine ⟨{ s with maxlen := n }, h₁, ?_⟩
  rw [exec, Option.bind_some, State.vfsChdir, hparse, Option.bind_some]
  simp only
  rw [h₁.getMount_eq]
  rfl

/-- The directory is changed if and only if the path fits and is in a file system. -/
theorem Mounted.meets_chdir (h : Mounted s l) {path : List Char} (hq : path.head? = some '/')
    (realloc : Bool) (accepts : F → List Char → Bool) :
    Meets fsNull alloc s (.chdir path realloc accepts) ↔
      s.Sound (.chdir path realloc accepts) := by
  by_cases hfits : s.available path realloc → path.length < cwdLength
  · obtain ⟨s₁, h₁, hexec⟩ := h.exec_chdir fsNull alloc accepts hfits
    cases hfs : (s.nodes (s.owner (s.parsed path realloc))).vfs with
    | none =>
      rw [hfs, Option.bind_none] at hexec
      refine iff_of_false ?_ ?_
      · rintro ⟨s', hs', -⟩
        rw [hexec] at hs'
        cases hs'
      · rintro ⟨-, fs, hs, -⟩
        rw [hfs] at hs
        cases hs
    | some fs =>
      rw [hfs, Option.bind_some] at hexec
      rw [State.Sound, hfs]
      by_cases ha : accepts fs (s.getFilename (s.owner (s.parsed path realloc))
          (s.parsed path realloc)) = true
      · rw [if_pos ha] at hexec
        constructor
        · rintro ⟨s', hs', -⟩
          refine ⟨hfits, fs, rfl, fun _ => ?_⟩
          by_cases havailable : s.available path realloc = true
          · exact hfits havailable
          · rw [hexec] at hs'
            split_ifs at hs' with hlen
            rwa [State.parsed, if_neg havailable] at hlen
        · rintro ⟨-, fs', hfs', hlen⟩
          obtain rfl := Option.some.inj hfs'
          rw [if_pos ((State.length_parsed_le hq realloc).trans_lt (hlen ha))] at hexec
          have h₂ : Mounted { s₁ with
              cwd := s.parsed path realloc
              cwdmount := s.owner (s.parsed path realloc) } l :=
            h₁.congr rfl rfl rfl (h.owner_mem (s.parsed path realloc))
          refine h₂.meets hexec ?_
          rw [Expected, h.mounts_eq, h₂.mounts_eq]
      · rw [if_neg ha] at hexec
        refine iff_of_true (h₁.meets hexec ?_) ⟨hfits, fs, rfl, fun h => absurd h ha⟩
        rw [Expected, h.mounts_eq, h₁.mounts_eq]
  · refine iff_of_false ?_ fun hsound => hfits hsound.1
    rintro ⟨s', hs', -⟩
    obtain ⟨ha, hlong⟩ := Classical.not_imp.mp hfits
    rw [exec, Option.bind_some, State.vfsChdir, State.parsePath, if_pos ha, if_neg hlong] at hs'
    cases hs'

theorem Mounted.owner_mem_of_remove (h : Mounted s l) (hq : q.head? = some '/')
    (hremove : s.remove (s.owner q) = some s') : s.owner q ∈ l := by
  have hne : s.owner q ≠ 0 := by
    intro h0
    rw [h0, h.remove_root] at hremove
    cases hremove
  rw [State.owner, if_pos hq] at hne ⊢
  split_ifs at hne ⊢ with hroot
  · exact absurd rfl hne
  · rw [h.mounts_eq] at hne ⊢
    cases hdir : l.find? fun i => s.path i = q ++ ['/'] with
    | some t => exact List.mem_of_find?_eq_some hdir
    | none =>
      cases hbegins : l.find? fun i => s.path i <+: q with
      | some t => exact List.mem_of_find?_eq_some hbegins
      | none =>
        rw [hdir, hbegins] at hne
        exact absurd rfl hne

/-- When unmounting does what is expected the mount has been found. -/
theorem Mounted.found_of_unmounts (h : Mounted s l) (hq : q.head? = some '/') (hroot : q ≠ ['/'])
    (hremove : s.remove (s.owner q) = some s') (hexpected : Unmounts s s' q) : s.Found q := by
  have hmem := h.owner_mem_of_remove hq hremove
  obtain ⟨s₁, hs₁, h₁, -, -, -⟩ := h.remove hmem
  obtain rfl := Option.some.inj (hs₁.symm.trans hremove)
  have hmounts := hexpected.mounts
  rw [h₁.mounts_eq, h.mounts_eq] at hmounts
  apply (h.found_iff hq hroot).mpr ⟨hmem, ?_⟩
  by_contra hpath
  have hstays : s.owner q ∈ l.eraseP fun i => s.path i = normal q :=
    (List.mem_eraseP_of_neg (by simpa using hpath)).mpr hmem
  rw [← hmounts] at hstays
  exact (List.nodup_cons.mp h.nodup).2.not_mem_erase hstays

/-- When the mount is found, unmounting does what is expected. -/
theorem Mounted.unmounts_of_found (h : Mounted s l) (hq : q.head? = some '/') (hroot : q ≠ ['/'])
    (hfound : s.Found q) :
    ∃ s', s.remove (s.owner q) = some s' ∧ Mounted s' (l.erase (s.owner q)) ∧ Unmounts s s' q := by
  obtain ⟨hmem, hpath⟩ := (h.found_iff hq hroot).mp hfound
  obtain ⟨s', hs', h', hdata, hcwdmount, hcwd⟩ := h.remove hmem
  refine ⟨s', hs', h', ?_, hdata, ?_, ?_⟩
  · rw [h'.mounts_eq, h.mounts_eq, h.erase_owner hq hroot hfound]
  · rw [h.mounts_eq]
    intro hnone
    exact absurd hpath (hnone _ hmem)
  · rw [h'.mounts_eq]
    intro hc
    have hne : s.owner q ≠ s.cwdmount := by
      intro he
      rw [← he] at hc
      rcases List.mem_cons.mp hc with h0 | hm
      · exact h.not_mem (h0 ▸ hmem)
      · exact (List.nodup_cons.mp h.nodup).2.not_mem_erase hm
    have hleave : s.leave (s.owner q) = s := by
      rw [State.leave, if_neg hne]
    rw [hcwdmount, hcwd, hleave]
    exact ⟨rfl, rfl⟩

/-- Unmounting does what is expected if and only if the mount is found. -/
theorem Mounted.meets_unmount (h : Mounted s l) {path : List Char} (hq : path.head? = some '/') :
    Meets fsNull alloc s (.unmount path) ↔ s.Sound (.unmount path) := by
  by_cases hroot : path = ['/']
  · refine iff_of_true ?_ (.inl hroot)
    have h' := h.resetRoot fsNull
    refine h'.meets (if_pos hroot) ?_
    rw [Expected, if_pos hroot, h.mounts_eq, h'.mounts_eq]
  · have hexec : exec fsNull alloc (some s) (.unmount path) = s.remove (s.owner path) := by
      rw [exec, Option.bind_some, State.vfsUnmount, if_neg hroot, h.getMount_eq, Option.bind_some]
    constructor
    · rintro ⟨s', hs', -, hexpected⟩
      rw [hexec] at hs'
      rw [Expected, if_neg hroot] at hexpected
      exact .inr (h.found_of_unmounts hq hroot hs' hexpected)
    · rintro (hr | hfound)
      · exact absurd hr hroot
      · obtain ⟨s', hs', h', hunmounts⟩ := h.unmounts_of_found hq hroot hfound
        refine h'.meets (hexec.trans hs') ?_
        rwa [Expected, if_neg hroot]

theorem Mounted.meets_iff (h : Mounted s l) {op : Op F} (hop : op.Absolute) :
    Meets fsNull alloc s op ↔ s.Sound op := by
  cases op with
  | mount path vfs mode calloc => exact h.meets_mount hop vfs mode calloc
  | unmount path => exact h.meets_unmount hop
  | chdir path realloc accepts => exact h.meets_chdir hop realloc accepts

/-- A call with an absolute path that meets the condition. -/
def Permitted (o : Option (State F)) (op : Op F) : Prop := op.Absolute ∧ ∀ s ∈ o, s.Sound op

/-- In every run of calls that meet the condition the mounts are linked behind the root, and the
current directory is on one of them. A call does what is expected if and only if it meets the
condition. -/
theorem mount_table (fsNull : F) (alloc : Streams.Allocator) (ops : List (Op F))
    (h : Transition.Along (exec fsNull alloc) Permitted (some (State.init fsNull)) ops) :
    ∃ s, ops.foldl (exec fsNull alloc) (some (State.init fsNull)) = some s ∧
      Mounted s s.mounts ∧
      ∀ op : Op F, op.Absolute → (Meets fsNull alloc s op ↔ s.Sound op) := by
  let I : Option (State F) → Prop := fun o => ∃ s, o = some s ∧ Mounted s s.mounts
  have hstep : ∀ o op, Permitted o op → I o → I (exec fsNull alloc o op) := by
    rintro o op ⟨habsolute, hsound⟩ ⟨s, rfl, hs⟩
    obtain ⟨s', hs', hmounted, -⟩ := (hs.meets_iff habsolute).mpr (hsound s rfl)
    exact ⟨s', hs', hmounted⟩
  have hinit : I (some (State.init fsNull)) := ⟨_, rfl, mounted_init fsNull⟩
  obtain ⟨s, hs, hmounted⟩ :=
    Transition.forall_states hstep hinit h _ Transition.foldl_mem_states
  exact ⟨s, hs, hmounted, fun op hop => hmounted.meets_iff hop⟩

/-- A card is mounted, its directory is entered, and it is unmounted. -/
def card : List (Op Unit) :=
  [.mount ['/', 's', 'd'] (some ()) {} true, .chdir ['/', 's', 'd'] true fun _ _ => true,
    .unmount ['/', 's', 'd']]

theorem mount_table_card :
    ∃ s, card.foldl (exec () Streams.firstFit) (some (State.init ())) = some s ∧
      Mounted s s.mounts ∧
      ∀ op : Op Unit, op.Absolute → (Meets () Streams.firstFit s op ↔ s.Sound op) := by
  apply mount_table () Streams.firstFit card
  refine ⟨⟨rfl, ?_⟩, ⟨rfl, ?_⟩, ⟨rfl, ?_⟩, trivial⟩
  · rintro s ⟨⟩
    exact .inr (.inr (by decide))
  · rintro s ⟨⟩
    exact ⟨fun _ => by decide, (), by decide, fun _ => by decide⟩
  · rintro s ⟨⟩
    exact .inr ⟨1, by decide, by decide⟩

/-- Unmounting a file of the card unmounts the card, and without a mount the root is freed. -/
theorem not_mount_table :
    (([.mount ['/', 's', 'd'] (some ()) {} true] : List (Op Unit)).foldl
      (exec () Streams.firstFit) (some (State.init ()))).map State.mounts = some [1] ∧
    (([.mount ['/', 's', 'd'] (some ()) {} true, .unmount ['/', 's', 'd', '/', 'f']] :
      List (Op Unit)).foldl (exec () Streams.firstFit) (some (State.init ()))).map State.mounts =
        some [] ∧
    ([.unmount ['/', 'f']] : List (Op Unit)).foldl (exec () Streams.firstFit)
      (some (State.init ())) = none := by
  refine ⟨?_, ?_, ?_⟩ <;> rfl

end Vfs

end Inspector
