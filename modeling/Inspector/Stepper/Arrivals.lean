import Inspector.Stepper.Interrupt
import Inspector.Transition.Run

/-! # Segments queued between interrupts

The main program queues segments at one end of the buffer while the interrupt works at the other.
As long as the buffer does not run empty, it makes no difference to the interrupts whether a
segment was queued before them or between them.
-/

namespace Inspector

variable {K : Type*}

namespace Stepper

/-- An interrupt, or a segment queued by the main program. -/
inductive Event (K : Type*) where
  | interrupt
  | queue (g : Segment K)

def queue (g : Segment K) (x : Stepper K) : Stepper K := { x with segments := x.segments ++ [g] }

def exec (blocks : ℕ → StBlock K) (x : Stepper K) : Event K → Stepper K
  | .interrupt => x.interrupt blocks
  | .queue g => x.queue g

def interrupts : List (Event K) → ℕ
  | [] => 0
  | .interrupt :: es => interrupts es + 1
  | .queue _ :: es => interrupts es

def queued : List (Event K) → List (Segment K)
  | [] => []
  | .interrupt :: es => queued es
  | .queue g :: es => g :: queued es

/-- The buffer is not empty when an interrupt comes. -/
def Served (x : Stepper K) : Event K → Prop
  | .interrupt => x.segments ≠ []
  | .queue _ => True

instance (x : Stepper K) : ∀ e, Decidable (x.Served e)
  | .interrupt => inferInstanceAs (Decidable (x.segments ≠ []))
  | .queue _ => inferInstanceAs (Decidable True)

def queueAll (gs : List (Segment K)) (x : Stepper K) : Stepper K :=
  { x with segments := x.segments ++ gs }

/-- The next interrupt adds to the counters without overflow. -/
def NoOverflow (blocks : ℕ → StBlock K) (x : Stepper K) : Prop :=
  ∀ y, x.pulseStart.fetch blocks = some y →
    ∀ i, (y.counter i).toNat + (y.steps i).toNat < 2 ^ 32

variable {blocks : ℕ → StBlock K} {x : Stepper K} {es : List (Event K)}

theorem fetch_queueAll (blocks : ℕ → StBlock K) (gs : List (Segment K)) (h : x.segments ≠ []) :
    (x.queueAll gs).pulseStart.fetch blocks =
      (x.pulseStart.fetch blocks).map (queueAll gs) := by
  have hp : (x.queueAll gs).pulseStart = x.pulseStart.queueAll gs := by
    unfold pulseStart queueAll
    split_ifs <;> rfl
  obtain ⟨n, s, hs⟩ := pulseStart_eq x
  obtain ⟨g, gs', hx⟩ := List.exists_cons_of_ne_nil h
  rw [hp, hs]
  unfold fetch queueAll
  cases s with
  | some g' => rfl
  | none =>
    simp only [hx, List.cons_append, Option.map_some, Option.some.injEq, loadSegment]
    split_ifs <;> rfl

theorem exists_fetch (blocks : ℕ → StBlock K) (h : x.segments ≠ []) :
    ∃ y, x.pulseStart.fetch blocks = some y ∧ y.segments = x.segments := by
  obtain ⟨n, s, hs⟩ := pulseStart_eq x
  obtain ⟨g, gs', hx⟩ := List.exists_cons_of_ne_nil h
  rw [hs]
  cases s with
  | some g' => exact ⟨_, rfl, rfl⟩
  | none =>
    refine ⟨loadSegment blocks g { x with pulses := x.emitted, newBlock := n, execSegment := none },
      ?_, (loadSegment_eq _ _ _).2.2⟩
    unfold fetch
    rw [hx]

variable {gs : List (Segment K)}

theorem countEvent_queueAll (h : x.segments ≠ []) :
    (x.queueAll gs).countEvent = x.countEvent.queueAll gs := by
  obtain ⟨g, gs', hx⟩ := List.exists_cons_of_ne_nil h
  unfold countEvent queueAll
  simp only [hx]
  split_ifs <;> rfl

/-- An interrupt does not see what is queued behind the first segment. -/
theorem interrupt_queueAll (h : x.segments ≠ []) :
    (x.queueAll gs).interrupt blocks = (x.interrupt blocks).queueAll gs := by
  obtain ⟨y, hy, hs⟩ := exists_fetch blocks h
  have hq := fetch_queueAll blocks gs h
  unfold interrupt
  rw [hq, hy]
  exact countEvent_queueAll (x := y.traceEvent) (hs ▸ h)

theorem noOverflow_queueAll (h : x.segments ≠ []) :
    (x.queueAll gs).NoOverflow blocks ↔ x.NoOverflow blocks := by
  obtain ⟨y, hy, -⟩ := exists_fetch blocks h
  unfold NoOverflow
  rw [fetch_queueAll blocks gs h, hy]
  simp [queueAll]

/-- A run in which the buffer does not run empty is a run of interrupts over all that it queues. -/
theorem foldl_exec (h : Transition.Along (exec blocks) Served x es) :
    es.foldl (exec blocks) x = (interrupt blocks)^[interrupts es] (x.queueAll (queued es)) := by
  induction es generalizing x with
  | nil => simp [queued, interrupts, queueAll]
  | cons e es ih =>
    obtain ⟨hs, h⟩ := h
    cases e with
    | interrupt =>
      rw [List.foldl_cons, ih h]
      exact congrArg _ (interrupt_queueAll hs).symm
    | queue g =>
      rw [List.foldl_cons, ih h]
      simp [queued, interrupts, queueAll, exec, queue]

theorem noOverflow_along (h : Transition.Along (exec blocks) Served x es)
    (hn : ∀ j < interrupts es,
      ((interrupt blocks)^[j] (x.queueAll (queued es))).NoOverflow blocks) :
    Transition.Along (exec blocks) (fun y e => e = .interrupt → y.NoOverflow blocks) x es := by
  induction es generalizing x with
  | nil => trivial
  | cons e es ih =>
    obtain ⟨hs, h⟩ := h
    cases e with
    | interrupt =>
      refine ⟨fun _ => (noOverflow_queueAll hs).mp (hn 0 (Nat.succ_pos _)), ih h ?_⟩
      intro j hj
      have := hn (j + 1) (Nat.succ_lt_succ hj)
      rw [Function.iterate_succ_apply] at this
      rwa [show queued (.interrupt :: es) = queued es from rfl, interrupt_queueAll hs] at this
    | queue g =>
      refine ⟨nofun, ih h ?_⟩
      intro j hj
      simpa [queued, queueAll, exec, queue] using hn j hj

end Stepper

end Inspector
