import GridRegions.Endpoint.Shift

/-!
Half-open ranges of whole numbers along one axis. There is one empty interval, with both ends at
zero, so equal sets of numbers have equal ends.
-/
namespace GridRegions

@[ext] structure Interval where
  start : Endpoint
  stop : Endpoint
  proper : start < stop ∨ start = .zero ∧ stop = .zero
  deriving DecidableEq, Repr

namespace Interval

def Mem (i : Interval) (x : Int) : Prop := i.start.AtMost x ∧ ¬ i.stop.AtMost x

instance (i : Interval) (x : Int) : Decidable (i.Mem x) :=
  inferInstanceAs (Decidable (_ ∧ _))

def empty : Interval := ⟨.zero, .zero, .inr ⟨rfl, rfl⟩⟩

def whole : Interval := ⟨.negInf, .posInf, .inl (by decide)⟩

/-- The numbers from `start` up to and without `stop`; ends out of order leave none. -/
def span (start stop : Endpoint) : Interval :=
  if ordered : start < stop then ⟨start, stop, .inl ordered⟩ else empty

/-- Like `span`, but ends out of order are a fault. -/
def ofEnds (start stop : Endpoint) : Except Fault Interval :=
  if stop < start then .error (.reversedEnds start stop) else .ok (span start stop)

def isEmpty (i : Interval) : Bool := decide (i.stop ≤ i.start)

def isBounded (i : Interval) : Bool := i.start.isFinite && i.stop.isFinite

def size (i : Interval) : Nat := i.start.gap i.stop

/-- The end `e` lies in the interval: at or above its start and below its stop. -/
def contains (i : Interval) (e : Endpoint) : Bool := decide (i.start ≤ e) && decide (e < i.stop)

def inter (a b : Interval) : Interval := span (max a.start b.start) (min a.stop b.stop)

def overlaps (a b : Interval) : Bool := !(a.inter b).isEmpty

def isApart (a b : Interval) : Bool := !a.overlaps b

/-- The smallest interval around both. -/
def hull (a b : Interval) : Interval :=
  if a.isEmpty then b
  else if b.isEmpty then a
  else span (min a.start b.start) (max a.stop b.stop)

/-- What comes before the interval and what comes after it. -/
def complement (i : Interval) : List Interval :=
  if i.isEmpty then [whole]
  else [span .negInf i.start, span i.stop .posInf].filter (!·.isEmpty)

/-- The at most two pieces of `a` outside `b`, in increasing order. -/
def outside (a b : Interval) : List Interval :=
  if b.isEmpty then [a]
  else [(span .negInf b.start).inter a, (span b.stop .posInf).inter a].filter (!·.isEmpty)

def text (i : Interval) : String := "[" ++ i.start.text ++ ", " ++ i.stop.text ++ ")"

theorem span_of_lt {start stop : Endpoint} (ordered : start < stop) :
    span start stop = ⟨start, stop, .inl ordered⟩ := by
  simp [span, ordered]

theorem span_of_not_lt {start stop : Endpoint} (reversed : ¬ start < stop) :
    span start stop = empty := by
  simp [span, reversed]

theorem span_start_stop (i : Interval) : span i.start i.stop = i := by
  cases i.proper with
  | inl ordered => exact span_of_lt ordered
  | inr zeros =>
    rw [zeros.1, zeros.2]
    exact (Interval.ext zeros.1 zeros.2).symm

theorem ends_span {start stop : Endpoint} (solid : (span start stop).isEmpty = false) :
    (span start stop).start = start ∧ (span start stop).stop = stop := by
  by_cases ordered : start < stop
  · rw [span_of_lt ordered]
    exact ⟨rfl, rfl⟩
  · rw [span_of_not_lt ordered] at solid
    cases solid

@[simp] theorem isEmpty_empty : empty.isEmpty = true := rfl

theorem isEmpty_eq_true_iff (i : Interval) : i.isEmpty = true ↔ i = empty := by
  constructor
  · intro h
    have le : i.stop ≤ i.start := of_decide_eq_true h
    rcases i.proper with lt | ⟨hs, ht⟩
    · have lt' : i.start.rank < i.stop.rank := lt
      have le' : i.stop.rank ≤ i.start.rank := le
      omega
    · exact Interval.ext hs ht
  · intro h
    subst h
    rfl

theorem isEmpty_eq_false_iff (i : Interval) : i.isEmpty = false ↔ i.start < i.stop := by
  have lt_iff : i.start < i.stop ↔ i.start.rank < i.stop.rank := Iff.rfl
  have le_iff : i.stop ≤ i.start ↔ i.stop.rank ≤ i.start.rank := Iff.rfl
  simp only [isEmpty, decide_eq_false_iff_not, lt_iff, le_iff]
  omega

end Interval

end GridRegions
