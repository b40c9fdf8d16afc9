/-!
Byte ranges of a text. Offsets are 32-bit: a range that would reach past the last representable
offset ends there, and one that starts past it is empty.
-/

namespace StreamLang

/-- A range of bytes: from `start` up to and without `stop`. -/
structure Span where
  start : Nat
  stop : Nat
  deriving DecidableEq, Repr

namespace Span

/-- The largest offset a span can hold. -/
def limit : Nat := UInt32.size - 1

/-- The span between two offsets. Offsets past the limit count as the limit, and a stop before the
start counts as the start. -/
def ofOffsets (start stop : Nat) : Span :=
  let first := min start limit
  ⟨first, max (min stop limit) first⟩

/-- Offsets within the limit are kept. -/
theorem ofOffsets_of_le {start stop : Nat} (ordered : start ≤ stop) (small : stop ≤ limit) :
    ofOffsets start stop = ⟨start, stop⟩ := by
  simp only [ofOffsets, mk.injEq]
  omega

/-- A span never ends before it starts. -/
theorem start_le_stop_ofOffsets (start stop : Nat) :
    (ofOffsets start stop).start ≤ (ofOffsets start stop).stop := by
  simp only [ofOffsets]
  omega

end Span

end StreamLang
