import AndroidKernel.Logger.Basic

/-!
# Reads and the caller's buffer

`logger_read` checks that an entry fits into the caller's buffer, but copies the loss warning
without a look at the buffer's size.
-/

namespace AndroidKernel.Logger

open CircularBuffer List

/-- The bytes of a read that succeeds, as many as it returns. -/
def ReadResult.bytes : ReadResult → Option (List UInt8)
  | wait | fault | inval => none
  | warning bytes | entry bytes => some bytes

/-- What a read asks `copy_to_user` to copy; a fault can cut it short. -/
def LoggerLog.copied (log : LoggerLog) (i count : ℕ) : List UInt8 :=
  ((log.loggerRead i count false).1.bytes).getD []

theorem le_length_overflowMessage (lost : BitVec 32) : 26 ≤ (overflowMessage lost).length := by
  simp only [overflowMessage, cons_append, length_cons, length_append, length_replicate, length_nil]
  omega

/-- A log of 64 KiB whose one reader was lapped. -/
def lappedLog : LoggerLog where
  buffer := fun _ => 0
  readers := [⟨0, 0⟩]
  wOff := 1
  head := 0
  size := 65536
  sign := 65537

/-- The warning goes into a buffer of one byte. -/
theorem warning_exceeds_buffer :
    ∃ bytes, (lappedLog.loggerRead 0 1 false).1.bytes = some bytes ∧ 26 ≤ bytes.length :=
  ⟨overflowMessage 65537, rfl, le_length_overflowMessage 65537⟩

/-- The warning, if it is due, fits into the caller's buffer. -/
def WarningFits (log : LoggerLog) (i count : ℕ) : Prop :=
  ∀ reader, log.readers[i]? = some reader → log.wOff ≠ reader.rOff →
    isOverflow log.size log.sign reader.sign = true →
      (overflowMessage (log.sign - reader.sign)).length ≤ count

theorem length_load (buf : ℕ → UInt8) (size off n : ℕ) : (load buf size off n).length = n := by
  unfold load
  dsimp only
  split_ifs
  · simp
  · simp
    omega

/-- What a read copies fits exactly if the warning does: an entry is checked against `count`. -/
theorem length_copied_le_iff (log : LoggerLog) (i count : ℕ) :
    (log.copied i count).length ≤ count ↔ WarningFits log i count := by
  unfold LoggerLog.copied LoggerLog.loggerRead WarningFits
  cases hreader : log.readers[i]? with
  | none => simp [ReadResult.bytes]
  | some reader =>
    by_cases hempty : log.wOff = reader.rOff
    · simp [hempty, ReadResult.bytes]
    by_cases hover : isOverflow log.size log.sign reader.sign = true
    · simp [hempty, hover, ReadResult.bytes]
    · by_cases hshort : count < log.getEntryLen reader.rOff
      · simp [hempty, hover, hshort, ReadResult.bytes]
      · have hlen := length_load log.buffer log.size reader.rOff (log.getEntryLen reader.rOff)
        simpa [hempty, hover, hshort, ReadResult.bytes, hlen] using Nat.le_of_not_lt hshort

/-- A read that succeeds returns as many bytes as it copies, and one that fails changes nothing. -/
theorem loggerRead_bytes (log : LoggerLog) (i count : ℕ) (fault : Bool) :
    (∀ bytes, (log.loggerRead i count fault).1.bytes = some bytes → bytes = log.copied i count) ∧
      ((log.loggerRead i count fault).1.bytes = none → (log.loggerRead i count fault).2 = log) := by
  unfold LoggerLog.copied LoggerLog.loggerRead
  cases log.readers[i]? with
  | none => simp [ReadResult.bytes]
  | some reader =>
    by_cases hempty : log.wOff = reader.rOff
    · simp [hempty, ReadResult.bytes]
    by_cases hover : isOverflow log.size log.sign reader.sign = true
    · cases fault <;> simp [hempty, hover, ReadResult.bytes]
    · by_cases hshort : count < log.getEntryLen reader.rOff
      · simp [hempty, hover, hshort, ReadResult.bytes]
      · cases fault <;> simp [hempty, hover, hshort, ReadResult.bytes]

/-- A read stays within the caller's buffer, whether it faults or not, and a read that fails changes
nothing, exactly if the warning is not due or fits. -/
theorem read_within_buffer (log : LoggerLog) (i count : ℕ) :
    ((log.copied i count).length ≤ count ∧ ∀ fault,
      (∀ bytes, (log.loggerRead i count fault).1.bytes = some bytes →
        bytes = log.copied i count) ∧
      ((log.loggerRead i count fault).1.bytes = none → (log.loggerRead i count fault).2 = log)) ↔
    WarningFits log i count := by
  rw [length_copied_le_iff]
  exact and_iff_left fun fault => loggerRead_bytes log i count fault

end AndroidKernel.Logger
