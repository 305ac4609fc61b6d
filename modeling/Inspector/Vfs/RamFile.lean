import Inspector.Json.Parse
import Inspector.Transition.Partial

/-! # The in-memory file

The one file of `fs_ram.c` is written to a staging buffer in front of a block that is reallocated.
Its mode, its handle and its length belong to the writer and to the reader. Allocations succeed;
what a new block holds is a parameter. A call has no result when a pointer is followed into a block
that has been freed or moved.
-/

namespace Inspector

open Json

namespace FsRam

/-- `BLOCK_TX_BUFFER_SIZE`. -/
def blockTxBufferSize : ℕ := 256

/-- The pointer to the next byte that is read: null, into the block, or into a former block. -/
inductive Pos | null | inside (offset : ℕ) | dangling
  deriving DecidableEq, Repr

/-- The pointer when the block is freed or moved. -/
def Pos.freed : Pos → Pos
  | .null => .null
  | .inside _ => .dangling
  | .dangling => .dangling

/-- The bytes that are copied from a pointer on; nothing is read for none. -/
def Pos.read (pos : Pos) (data : Option Bytes) (count : ℕ) : Option Bytes :=
  if count = 0 then some []
  else
    match pos with
    | .inside i =>
      data.bind fun bs => if i + count ≤ bs.length then some ((bs.drop i).take count) else none
    | _ => none

def Pos.advance (pos : Pos) (count : ℕ) : Pos :=
  match pos with
  | .inside i => .inside (i + count)
  | pos => pos

/-- `ram_file_t`. The handle is zero or one; of the staging buffer there are the bytes in front of
its pointer. -/
structure RamFile where
  data : Option Bytes := none
  pos : Pos := .null
  write : Bool := false
  len : ℕ := 0
  remaining : ℕ := 0
  handle : Bool := false
  txbuf : Bytes := []
  maxLength : ℕ := 0
  deriving DecidableEq

/-- The calls of the file; `read` and `write` with the product of their sizes and counts. -/
inductive Call
  | fopen (write : Bool)
  | fwrite (buffer : Bytes)
  | fclose
  | fread (length : ℕ)
  | feof
  | funlink
  deriving DecidableEq

/-- What a call returns. -/
inductive Answer
  | file (opened : Bool)
  | count (n : ℕ)
  | bytes (buffer : Bytes)
  | flag (b : Bool)
  | done
  deriving DecidableEq

namespace RamFile

/-- The block is freed, if there is one. -/
def freeData (f : RamFile) : RamFile :=
  match f.data with
  | none => f
  | some _ => { f with data := none, pos := f.pos.freed }

variable (fresh : ℕ → UInt8)

/-- `ram_write`: the block is made longer, and keeps what it holds. -/
def ramWrite (f : RamFile) (s : Bytes) : RamFile :=
  { f with
    data := some ((f.data.getD [] ++ (List.range f.len).map fresh).take f.len ++ s)
    pos := f.pos.freed
    len := f.len + s.length
    txbuf := [] }

/-- `fs_open`, with a mode that has a `w` or not. -/
def fsOpen (f : RamFile) (write : Bool) : Bool × RamFile :=
  if write then
    if f.handle then (false, { f with write := true })
    else
      (true, { f.freeData with
        write := true
        len := 0
        handle := true
        txbuf := []
        maxLength := blockTxBufferSize })
  else
    (f.handle, { f with
      write := false
      pos := f.data.elim .null fun _ => .inside 0
      remaining := f.len })

/-- `fs_close`. -/
def fsClose (f : RamFile) : RamFile :=
  if f.write then
    if f.txbuf ≠ [] then f.ramWrite fresh f.txbuf else f
  else { f.freeData with handle := false }

/-- `fs_read`: the bytes in the buffer. -/
def fsRead (f : RamFile) (length : ℕ) : Option (Bytes × RamFile) :=
  if f.pos = .null then some ([], { f with remaining := 0 })
  else
    let rcount := if f.remaining < length then f.remaining else length
    (f.pos.read f.data rcount).map fun buffer =>
      (buffer, { f with pos := f.pos.advance rcount, remaining := f.remaining - rcount })

/-- `fs_write`. -/
def fsWrite (f : RamFile) (s : Bytes) : Option (ℕ × RamFile) :=
  if s.length = 0 ∨ f.handle = false then some (0, f)
  else
    let f :=
      if f.txbuf ≠ [] ∧ f.maxLength < f.txbuf.length + s.length then f.ramWrite fresh f.txbuf else f
    if f.txbuf = [] ∧ f.maxLength < s.length then some (s.length, f.ramWrite fresh s)
    else if f.txbuf.length + s.length ≤ blockTxBufferSize then
      some (s.length, { f with txbuf := f.txbuf ++ s })
    else none

/-- `fs_eof`. -/
def fsEof (f : RamFile) : Bool := f.remaining = 0

/-- `fs_unlink`. -/
def fsUnlink (f : RamFile) : RamFile := { f.freeData with handle := false }

def call (f : RamFile) : Call → Option (Answer × RamFile)
  | .fopen write => some (.file (f.fsOpen write).1, (f.fsOpen write).2)
  | .fwrite buffer => (f.fsWrite fresh buffer).map fun r => (.count r.1, r.2)
  | .fclose => some (.done, f.fsClose fresh)
  | .fread length => (f.fsRead length).map fun r => (.bytes r.1, r.2)
  | .feof => some (.flag f.fsEof, f)
  | .funlink => some (.done, f.fsUnlink)

end RamFile

/-- The sessions as the callers see them: there is no file, the bytes of a write session, of a file
that is closed, or of a read session that has delivered some of them. -/
inductive View
  | idle
  | writing (bs : Bytes)
  | closed (bs : Bytes)
  | reading (bs : Bytes) (delivered : ℕ)
  deriving DecidableEq

namespace View

def isWriting : View → Bool
  | .writing _ => true
  | _ => false

def isReading : View → Bool
  | .reading _ _ => true
  | _ => false

/-- The answers that the sessions determine. -/
def answer : View → Call → Option Answer
  | .idle, .fopen write => some (.file write)
  | .writing _, .fopen true => some (.file false)
  | .closed _, .fopen write => some (.file !write)
  | .reading _ _, .fopen write => some (.file !write)
  | .idle, .fwrite _ => some (.count 0)
  | .writing _, .fwrite buffer => some (.count buffer.length)
  | .reading bs k, .fread length => some (.bytes ((bs.drop k).take length))
  | .reading bs k, .feof => some (.flag (k = bs.length))
  | _, _ => none

/-- The sessions behind a call: an open that is refused leaves them as they are. -/
def next : View → Call → View
  | .idle, .fopen true => .writing []
  | .closed bs, .fopen false => .reading bs 0
  | .reading bs _, .fopen false => .reading bs 0
  | .writing bs, .fwrite buffer => .writing (bs ++ buffer)
  | .writing bs, .fclose => .closed bs
  | .reading _ _, .fclose => .idle
  | .reading bs k, .fread length => .reading bs (min bs.length (k + length))
  | _, .funlink => .idle
  | v, _ => v

end View

/-- The file, and its sessions. -/
structure State where
  file : RamFile := {}
  view : View := .idle

namespace State

def exec (fresh : ℕ → UInt8) (x : State) (c : Call) : Option (Answer × State) :=
  (x.file.call fresh c).map fun r => (r.1, ⟨r.2, x.view.next c⟩)

/-- The answer is the one that the sessions determine, and an open that returns no file changes
none of them. -/
def Good (x : State) (c : Call) (o : Answer) (x' : State) : Prop :=
  (∀ a ∈ x.view.answer c, o = a) ∧ (o = .file false → x'.view = x.view)

/-- A call that the file is made for. It is not opened for writing during a read session nor for
reading during a write session, bytes are written in a write session or when there is no file, and
there is nothing left to read outside of a read session. -/
def Meets (x : State) : Call → Prop
  | .fopen true => x.view.isReading = false
  | .fopen false => x.view.isWriting = false
  | .fwrite buffer => buffer = [] ∨ x.view = .idle ∨ x.view.isWriting = true
  | .fread length =>
    x.view.isReading = true ∨ x.file.pos = .null ∨ x.file.remaining = 0 ∨ length = 0
  | _ => True

end State

variable {fresh : ℕ → UInt8} {f : RamFile} {bs s : Bytes} {k n : ℕ} {x : State}

/-- The block holds some bytes; there is none for the empty text. -/
structure Stores (f : RamFile) (bs : Bytes) : Prop where
  data_eq : f.data.getD [] = bs
  len_eq : f.len = bs.length
  none_iff : f.data = none ↔ bs = []

/-- A write session has put some bytes into the block and into the staging buffer. -/
structure Writing (f : RamFile) (bs : Bytes) : Prop where
  handle : f.handle = true
  write : f.write = true
  maxLength : f.maxLength = blockTxBufferSize
  fits : f.txbuf.length ≤ blockTxBufferSize
  stores : ∃ block, Stores f block ∧ bs = block ++ f.txbuf

/-- The bytes are in the block. -/
structure Closed (f : RamFile) (bs : Bytes) : Prop where
  handle : f.handle = true
  write : f.write = true
  txbuf : f.txbuf = []
  stores : Stores f bs

/-- A read session has delivered some bytes. -/
structure Reading (f : RamFile) (bs : Bytes) (k : ℕ) : Prop where
  handle : f.handle = true
  write : f.write = false
  stores : Stores f bs
  le : k ≤ bs.length
  remaining : f.remaining = bs.length - k
  pos : f.pos = if bs = [] then .null else .inside k

/-- The file is as its sessions need it. -/
def Keeps (x : State) : Prop :=
  match x.view with
  | .idle => x.file.handle = false
  | .writing bs => Writing x.file bs
  | .closed bs => Closed x.file bs
  | .reading bs k => Reading x.file bs k

theorem Stores.ramWrite (h : Stores f bs) (hs : s ≠ []) :
    Stores (f.ramWrite fresh s) (bs ++ s) := by
  refine ⟨?_, ?_, ?_⟩
  · rw [RamFile.ramWrite, Option.getD_some, h.data_eq, h.len_eq, List.take_left]
  · rw [RamFile.ramWrite, h.len_eq, List.length_append]
  · rw [RamFile.ramWrite]
    simp [hs]

/-- Bytes are appended to the staging buffer, or to the block. -/
theorem Writing.fsWrite (h : Writing f bs) (hs : s ≠ []) :
    ∃ f', f.fsWrite fresh s = some (s.length, f') ∧ Writing f' (bs ++ s) := by
  obtain ⟨block, hstores, rfl⟩ := h.stores
  have hpos : ¬(s.length = 0 ∨ f.handle = false) := by
    rw [List.length_eq_zero_iff, h.handle]
    simpa using hs
  rw [RamFile.fsWrite, if_neg hpos]
  by_cases hflush : f.txbuf ≠ [] ∧ f.maxLength < f.txbuf.length + s.length
  · -- the staging buffer is put into the block first
    have hflushed : Stores (f.ramWrite fresh f.txbuf) _ := hstores.ramWrite hflush.1
    rw [if_pos hflush]
    by_cases hdirect : f.maxLength < s.length
    · refine ⟨_, if_pos ⟨rfl, hdirect⟩, h.handle, h.write, h.maxLength, Nat.zero_le _, ?_⟩
      exact ⟨_, hflushed.ramWrite hs, (List.append_nil _).symm⟩
    · have hle : s.length ≤ blockTxBufferSize := h.maxLength ▸ not_lt.mp hdirect
      refine ⟨_, (if_neg fun h => hdirect h.2).trans (if_pos ?_), h.handle, h.write, h.maxLength,
        hle, _, ⟨hflushed.data_eq, hflushed.len_eq, hflushed.none_iff⟩, rfl⟩
      simpa [RamFile.ramWrite] using hle
  · rw [if_neg hflush]
    by_cases hdirect : f.txbuf = [] ∧ f.maxLength < s.length
    · refine ⟨_, if_pos hdirect, h.handle, h.write, h.maxLength, Nat.zero_le _, ?_⟩
      refine ⟨_, hstores.ramWrite hs, ?_⟩
      rw [hdirect.1, List.append_nil]
      exact (List.append_nil _).symm
    · have hle : f.txbuf.length + s.length ≤ blockTxBufferSize := by
        rw [← h.maxLength]
        by_cases hempty : f.txbuf = []
        · rw [hempty, List.length_nil, Nat.zero_add]
          exact not_lt.mp fun hlt => hdirect ⟨hempty, hlt⟩
        · exact not_lt.mp fun hlt => hflush ⟨hempty, hlt⟩
      refine ⟨_, (if_neg hdirect).trans (if_pos hle), h.handle, h.write, h.maxLength, ?_, block,
        ⟨hstores.data_eq, hstores.len_eq, hstores.none_iff⟩, List.append_assoc _ _ _⟩
      rw [List.length_append]
      exact hle

theorem Writing.fsClose (h : Writing f bs) : Closed (f.fsClose fresh) bs := by
  obtain ⟨block, hstores, rfl⟩ := h.stores
  rw [RamFile.fsClose, if_pos h.write]
  by_cases hempty : f.txbuf = []
  · rw [if_neg (not_not.mpr hempty), hempty, List.append_nil]
    exact ⟨h.handle, h.write, hempty, hstores⟩
  · rw [if_pos hempty]
    exact ⟨h.handle, h.write, rfl, hstores.ramWrite hempty⟩

/-- A read session begins. -/
theorem Stores.fsOpen (h : Stores f bs) (hhandle : f.handle = true) :
    Reading (f.fsOpen false).2 bs 0 := by
  refine ⟨hhandle, rfl, ⟨h.data_eq, h.len_eq, h.none_iff⟩, Nat.zero_le _, h.len_eq, ?_⟩
  change f.data.elim Pos.null (fun _ => Pos.inside 0) = _
  split_ifs with hempty
  · rw [h.none_iff.mpr hempty]
    rfl
  · obtain ⟨data, hdata⟩ := Option.ne_none_iff_exists'.mp fun hnone => hempty (h.none_iff.mp hnone)
    rw [hdata]
    rfl

/-- The next bytes are delivered. -/
theorem Reading.fsRead (h : Reading f bs k) (n : ℕ) :
    ∃ f', f.fsRead n = some ((bs.drop k).take n, f') ∧ Reading f' bs (min bs.length (k + n)) := by
  have hle := h.le
  have hpos := h.pos
  rw [RamFile.fsRead]
  by_cases hempty : bs = []
  · subst hempty
    rw [if_pos rfl] at hpos
    refine ⟨{ f with remaining := 0 }, ?_, h.handle, h.write,
      ⟨h.stores.data_eq, h.stores.len_eq, h.stores.none_iff⟩, Nat.min_le_left _ _,
      (Nat.zero_sub _).symm, hpos⟩
    rw [if_pos hpos, List.drop_nil, List.take_nil]
  · rw [if_neg hempty] at hpos
    obtain ⟨data, hdata⟩ :=
      Option.ne_none_iff_exists'.mp fun hnone => hempty (h.stores.none_iff.mp hnone)
    have hbs : data = bs := by
      have hget := h.stores.data_eq
      rwa [hdata] at hget
    obtain ⟨c, hc⟩ : ∃ c, min bs.length (k + n) = k + c := ⟨min bs.length (k + n) - k, by omega⟩
    have hcount : (if f.remaining < n then f.remaining else n) = c := by
      rw [h.remaining]
      split_ifs <;> omega
    have hread : f.pos.read f.data c = some ((bs.drop k).take n) := by
      have htake : (bs.drop k).take c = (bs.drop k).take n := by
        rw [List.take_eq_take_iff, List.length_drop]
        omega
      unfold Pos.read
      rw [hpos, hdata, hbs, ← htake]
      split_ifs with hzero
      · rw [hzero, List.take_zero]
      · exact if_pos (by omega)
    have hnull : f.pos ≠ .null := fun hnull => Pos.noConfusion (hpos.symm.trans hnull)
    rw [if_neg hnull]
    simp only [hcount, hread, Option.map_some]
    refine ⟨_, rfl, h.handle, h.write, ⟨h.stores.data_eq, h.stores.len_eq, h.stores.none_iff⟩,
      Nat.min_le_left _ _, ?_, ?_⟩
    · dsimp only
      rw [h.remaining]
      omega
    · dsimp only
      rw [hpos, if_neg hempty, hc]
      rfl

/-- There is nothing left to read. -/
theorem fsRead_nothing (hm : f.pos = .null ∨ f.remaining = 0 ∨ n = 0) :
    ∃ f', f.fsRead n = some ([], f') ∧
      f' = { f with pos := f'.pos, remaining := f'.remaining } := by
  rw [RamFile.fsRead]
  by_cases hnull : f.pos = .null
  · rw [if_pos hnull]
    exact ⟨_, rfl, rfl⟩
  · have hnothing := hm.resolve_left hnull
    have hcount : (if f.remaining < n then f.remaining else n) = 0 := by
      split_ifs <;> omega
    rw [if_neg hnull]
    simp only [hcount, Pos.read, if_pos, Option.map_some]
    exact ⟨_, rfl, rfl⟩

theorem handle_freeData (f : RamFile) : f.freeData.handle = f.handle := by
  rw [RamFile.freeData]
  split <;> rfl

/-- A file that is opened for writing is empty. -/
theorem fsOpen_idle (h : f.handle = false) :
    (f.fsOpen true).1 = true ∧ Writing (f.fsOpen true).2 [] := by
  have hdata : f.freeData.data = none := by
    rw [RamFile.freeData]
    split
    · assumption
    · rfl
  rw [RamFile.fsOpen, if_pos rfl, h]
  refine ⟨rfl, rfl, rfl, rfl, Nat.zero_le _, [], ⟨?_, rfl, ?_⟩, rfl⟩
  · exact congrArg (Option.getD · []) hdata
  · exact ⟨fun _ => rfl, fun _ => hdata⟩

/-- An open for writing that is refused changes nothing when the mode is the one for writing. -/
theorem fsOpen_refused (hhandle : f.handle = true) (hwrite : f.write = true) :
    f.fsOpen true = (false, f) := by
  rw [RamFile.fsOpen, if_pos rfl, if_pos hhandle, ← hwrite]

theorem fsWrite_nil (f : RamFile) : f.fsWrite fresh [] = some (0, f) := if_pos (.inl rfl)

theorem fsClose_idle (h : f.handle = false) : (f.fsClose fresh).handle = false := by
  rw [RamFile.fsClose]
  split_ifs
  · exact h
  · exact h
  · rfl

/-- A file that is closed for writing stays as it is. -/
theorem Closed.fsClose (h : Closed f bs) : f.fsClose fresh = f := by
  rw [RamFile.fsClose, if_pos h.write, if_neg (not_not.mpr h.txbuf)]

/-- A call has the result that the sessions determine, and keeps the file as they need it. -/
def Sound (fresh : ℕ → UInt8) (x : State) (c : Call) : Prop :=
  ∃ o x', x.exec fresh c = some (o, x') ∧ x.Good c o x' ∧ Keeps x'

section Calls

variable {v : View}

theorem sound_of_call {c : Call} {o : Answer} {f' : RamFile}
    (hcall : f.call fresh c = some (o, f')) (hanswer : ∀ a ∈ v.answer c, o = a)
    (hview : o = .file false → v.next c = v) (hkeeps : Keeps ⟨f', v.next c⟩) :
    Sound fresh ⟨f, v⟩ c := by
  refine ⟨o, ⟨f', v.next c⟩, ?_, ⟨hanswer, hview⟩, hkeeps⟩
  rw [State.exec, hcall, Option.map_some]

/-- The answer is the one that is determined. -/
theorem answer_of_eq {c : Call} {o a : Answer} (h : v.answer c = some o) (ha : a ∈ v.answer c) :
    o = a :=
  Option.some.inj (h.symm.trans ha)

theorem sound_fopen_write (h : Keeps ⟨f, v⟩) (hm : v.isReading = false) :
    Sound fresh ⟨f, v⟩ (.fopen true) := by
  cases v with
  | idle =>
    obtain ⟨hopened, hwriting⟩ := fsOpen_idle h
    refine sound_of_call rfl (fun a => answer_of_eq ?_) (fun hfile => ?_) hwriting
    · rw [hopened]
      rfl
    · rw [hopened] at hfile
      cases hfile
  | writing bs =>
    have hopen := fsOpen_refused h.handle h.write
    refine sound_of_call rfl (fun a => answer_of_eq ?_) (fun _ => rfl) ?_ <;> rw [hopen]
    · rfl
    · exact h
  | closed bs =>
    have hopen := fsOpen_refused h.handle h.write
    refine sound_of_call rfl (fun a => answer_of_eq ?_) (fun _ => rfl) ?_ <;> rw [hopen]
    · rfl
    · exact h
  | reading bs k => cases hm

theorem sound_fopen_read (h : Keeps ⟨f, v⟩) (hm : v.isWriting = false) :
    Sound fresh ⟨f, v⟩ (.fopen false) := by
  cases v with
  | idle =>
    have hopen : (f.fsOpen false).1 = false := h
    refine sound_of_call rfl (fun a => answer_of_eq ?_) (fun _ => rfl) h
    rw [hopen]
    rfl
  | writing bs => cases hm
  | closed bs =>
    have hhandle : f.handle = true := Closed.handle h
    have hopen : (f.fsOpen false).1 = true := hhandle
    refine sound_of_call rfl (fun a => answer_of_eq ?_) (fun hfile => ?_)
      ((Closed.stores h).fsOpen hhandle)
    · rw [hopen]
      rfl
    · rw [hopen] at hfile
      cases hfile
  | reading bs k =>
    have hhandle : f.handle = true := Reading.handle h
    have hopen : (f.fsOpen false).1 = true := hhandle
    refine sound_of_call rfl (fun a => answer_of_eq ?_) (fun hfile => ?_)
      ((Reading.stores h).fsOpen hhandle)
    · rw [hopen]
      rfl
    · rw [hopen] at hfile
      cases hfile

theorem sound_fwrite (h : Keeps ⟨f, v⟩) {buffer : Bytes}
    (hm : buffer = [] ∨ v = .idle ∨ v.isWriting = true) :
    Sound fresh ⟨f, v⟩ (.fwrite buffer) := by
  have hcall : ∀ {r : ℕ × RamFile}, f.fsWrite fresh buffer = some r →
      f.call fresh (.fwrite buffer) = some (.count r.1, r.2) := by
    intro r hr
    rw [RamFile.call, hr, Option.map_some]
  cases v with
  | idle =>
    have hnothing : f.fsWrite fresh buffer = some (0, f) := if_pos (.inr h)
    exact sound_of_call (hcall hnothing) (fun a => answer_of_eq rfl) Answer.noConfusion h
  | writing bs =>
    by_cases hempty : buffer = []
    · subst hempty
      refine sound_of_call (hcall (fsWrite_nil f)) (fun a => answer_of_eq rfl)
        Answer.noConfusion ?_
      exact (congrArg (Writing f) (List.append_nil bs)).mpr h
    · obtain ⟨f', hwrite, hwriting⟩ : ∃ f', f.fsWrite fresh buffer = some (buffer.length, f') ∧
          Writing f' (bs ++ buffer) := Writing.fsWrite h hempty
      exact sound_of_call (hcall hwrite) (fun a => answer_of_eq rfl) Answer.noConfusion hwriting
  | closed bs =>
    obtain rfl : buffer = [] := by simpa [View.isWriting] using hm
    exact sound_of_call (hcall (fsWrite_nil f)) (fun a ha => by cases ha) Answer.noConfusion h
  | reading bs k =>
    obtain rfl : buffer = [] := by simpa [View.isWriting] using hm
    exact sound_of_call (hcall (fsWrite_nil f)) (fun a ha => by cases ha) Answer.noConfusion h

theorem sound_fclose (h : Keeps ⟨f, v⟩) : Sound fresh ⟨f, v⟩ .fclose := by
  cases v with
  | idle =>
    exact sound_of_call rfl (fun a ha => by cases ha) Answer.noConfusion (fsClose_idle h)
  | writing bs =>
    exact sound_of_call rfl (fun a ha => by cases ha) Answer.noConfusion (Writing.fsClose h)
  | closed bs =>
    refine sound_of_call rfl (fun a ha => by cases ha) Answer.noConfusion ?_
    rw [Closed.fsClose h]
    exact h
  | reading bs k =>
    refine sound_of_call rfl (fun a ha => by cases ha) Answer.noConfusion ?_
    rw [RamFile.fsClose, if_neg (Bool.eq_false_iff.mp (Reading.write h))]
    rfl

theorem sound_fread (h : Keeps ⟨f, v⟩) {n : ℕ}
    (hm : v.isReading = true ∨ f.pos = .null ∨ f.remaining = 0 ∨ n = 0) :
    Sound fresh ⟨f, v⟩ (.fread n) := by
  have hcall : ∀ {r : Bytes × RamFile}, f.fsRead n = some r →
      f.call fresh (.fread n) = some (.bytes r.1, r.2) := by
    intro r hr
    rw [RamFile.call, hr, Option.map_some]
  cases v with
  | reading bs k =>
    obtain ⟨f', hread, hreading⟩ := Reading.fsRead h n
    exact sound_of_call (hcall hread) (fun a => answer_of_eq rfl) Answer.noConfusion hreading
  | idle =>
    obtain ⟨f', hread, heq⟩ := fsRead_nothing (hm.resolve_left Bool.false_ne_true)
    refine sound_of_call (hcall hread) (fun a ha => by cases ha) Answer.noConfusion ?_
    rw [heq]
    exact h
  | writing bs =>
    obtain ⟨f', hread, heq⟩ := fsRead_nothing (hm.resolve_left Bool.false_ne_true)
    refine sound_of_call (hcall hread) (fun a ha => by cases ha) Answer.noConfusion ?_
    obtain ⟨hhandle, hwrite, hmax, hfits, block, hstores, hbs⟩ := h
    rw [heq]
    exact ⟨hhandle, hwrite, hmax, hfits, block,
      ⟨hstores.data_eq, hstores.len_eq, hstores.none_iff⟩, hbs⟩
  | closed bs =>
    obtain ⟨f', hread, heq⟩ := fsRead_nothing (hm.resolve_left Bool.false_ne_true)
    refine sound_of_call (hcall hread) (fun a ha => by cases ha) Answer.noConfusion ?_
    obtain ⟨hhandle, hwrite, hempty, hstores⟩ := h
    rw [heq]
    exact ⟨hhandle, hwrite, hempty, ⟨hstores.data_eq, hstores.len_eq, hstores.none_iff⟩⟩

/-- The end of the file comes when all has been delivered. -/
theorem Reading.fsEof (h : Reading f bs k) : f.fsEof = decide (k = bs.length) := by
  have hle := h.le
  rw [RamFile.fsEof, h.remaining, decide_eq_decide]
  omega

theorem sound_feof (h : Keeps ⟨f, v⟩) : Sound fresh ⟨f, v⟩ .feof := by
  cases v with
  | reading bs k =>
    refine sound_of_call rfl (fun a => answer_of_eq ?_) Answer.noConfusion h
    rw [Reading.fsEof h]
    rfl
  | idle => exact sound_of_call rfl (fun a ha => by cases ha) Answer.noConfusion h
  | writing bs => exact sound_of_call rfl (fun a ha => by cases ha) Answer.noConfusion h
  | closed bs => exact sound_of_call rfl (fun a ha => by cases ha) Answer.noConfusion h

theorem sound_funlink (f : RamFile) (v : View) : Sound fresh ⟨f, v⟩ .funlink := by
  cases v <;> exact sound_of_call rfl (fun a ha => by cases ha) Answer.noConfusion rfl

end Calls

/-- A call in one of the sessions, or outside of them. -/
theorem Keeps.exec (h : Keeps x) {c : Call} (hm : x.Meets c) : Sound fresh x c := by
  cases c with
  | fopen write =>
    cases write with
    | true => exact sound_fopen_write h hm
    | false => exact sound_fopen_read h hm
  | fwrite buffer => exact sound_fwrite h hm
  | fclose => exact sound_fclose h
  | fread n => exact sound_fread h hm
  | feof => exact sound_feof h
  | funlink => exact sound_funlink x.file x.view

/-- Every call of a run has a result: a file that is closed is read as it was written, its end comes
with its last byte, and an open that is refused makes no difference to the sessions. -/
def KeepsSessions (fresh : ℕ → UInt8) (calls : List Call) : Prop :=
  Transition.Fine (State.exec fresh) State.Good {} calls

theorem keepsSessions {calls : List Call}
    (h : Transition.Guarded (State.exec fresh) State.Meets {} calls) :
    KeepsSessions fresh calls := by
  have hstart : Keeps {} := rfl
  exact Transition.fine_of_guarded (fun _ _ hkeeps hmeets => Keeps.exec hkeeps hmeets) hstart h

instance (x : State) : DecidablePred x.Meets
  | .fopen true => inferInstanceAs (Decidable (_ = _))
  | .fopen false => inferInstanceAs (Decidable (_ = _))
  | .fwrite _ => inferInstanceAs (Decidable (_ ∨ _))
  | .fread _ => inferInstanceAs (Decidable (_ ∨ _))
  | .fclose => inferInstanceAs (Decidable True)
  | .feof => inferInstanceAs (Decidable True)
  | .funlink => inferInstanceAs (Decidable True)

/-- A file is written in three parts, and read in two with an open in between that is refused. -/
theorem keepsSessions_parts :
    KeepsSessions (fun _ => 0xFF)
      [.fopen true, .fwrite [1, 2], .fopen true, .fwrite (List.replicate 300 3), .fwrite [4],
        .fclose, .fopen true, .fopen false, .fread 100, .feof, .fread 400, .feof, .fclose,
        .fopen false] :=
  keepsSessions (by decide +kernel)

/-- An open for writing is refused during a read session, and the file is never freed. -/
theorem not_keepsSessions :
    ¬KeepsSessions (fun _ => 0xFF)
      [.fopen true, .fwrite [1], .fclose, .fopen false, .fopen true, .fread 1, .fclose,
        .fopen true] := by
  rintro ⟨_, _, h1, -, _, _, h2, -, _, _, h3, -, _, _, h4, -, _, _, h5, -, _, _, h6, -, _, _, h7, -,
    _, _, h8, hgood, -⟩
  obtain ⟨rfl, rfl⟩ := Prod.mk.inj (Option.some.inj h1)
  obtain ⟨rfl, rfl⟩ := Prod.mk.inj (Option.some.inj h2)
  obtain ⟨rfl, rfl⟩ := Prod.mk.inj (Option.some.inj h3)
  obtain ⟨rfl, rfl⟩ := Prod.mk.inj (Option.some.inj h4)
  obtain ⟨rfl, rfl⟩ := Prod.mk.inj (Option.some.inj h5)
  obtain ⟨rfl, rfl⟩ := Prod.mk.inj (Option.some.inj h6)
  obtain ⟨rfl, rfl⟩ := Prod.mk.inj (Option.some.inj h7)
  obtain ⟨rfl, rfl⟩ := Prod.mk.inj (Option.some.inj h8)
  exact absurd (hgood.1 (.file true) rfl) (by decide)

end FsRam

end Inspector
