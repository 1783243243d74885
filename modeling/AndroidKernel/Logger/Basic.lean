import AndroidKernel.Lib.CircularBuffer
import Mathlib.Algebra.Order.Ring.Nat

/-!
# The Android logger ring

The model of `drivers/staging/android/logger.c`: the ring with its write offset
and head, the readers with their own offsets, and the operations that run under
`log->mutex`. Byte offsets are natural numbers below `size`; the MediaTek `sign`
counters are 32-bit words, as `long` is on this machine.
-/

namespace AndroidKernel.Logger

open CircularBuffer

/-- `sizeof(struct logger_entry)`: the header that precedes every payload. -/
def loggerEntrySize : ℕ := 20

/-- `LOGGER_ENTRY_MAX_LEN` -/
def loggerEntryMaxLen : ℕ := 4 * 1024

/-- `LOGGER_ENTRY_MAX_PAYLOAD` -/
def loggerEntryMaxPayload : ℕ := loggerEntryMaxLen - loggerEntrySize

/-- `struct logger_reader` -/
structure LoggerReader where
  /-- The current read head offset. -/
  rOff : ℕ
  /-- The byte count this reader has accounted for. -/
  sign : BitVec 32

/-- `struct logger_log` -/
structure LoggerLog where
  /-- The ring buffer itself, one byte a cell. -/
  buffer : ℕ → UInt8
  /-- The readers of this log, in the order they were opened. -/
  readers : List LoggerReader
  /-- The current write head offset. -/
  wOff : ℕ
  /-- New readers start here. -/
  head : ℕ
  /-- The size of the log. -/
  size : ℕ
  /-- The number of bytes ever stored, for the loss warning. -/
  sign : BitVec 32

/-- `DEFINE_LOGGER_DEVICE`: an empty log of the given size. -/
def defineLoggerDevice (size : ℕ) : LoggerLog where
  buffer := fun _ => 0
  readers := []
  wOff := 0
  head := 0
  size := size
  sign := 0

variable (log : LoggerLog) (len off : ℕ) (stamp : Fin 18 → UInt8)

/-- `logger_offset(n)`: the (optimized) modulus, exact for a power of two. -/
def LoggerLog.loggerOffset (n : ℕ) : ℕ := n &&& (log.size - 1)

/-- `get_entry_len`: the two length bytes may lie on both sides of the end. -/
def LoggerLog.getEntryLen : ℕ :=
  let val := match log.size - off with
    | 1 => (log.buffer off).toNat + 256 * (log.buffer 0).toNat
    | _ => (log.buffer off).toNat + 256 * (log.buffer (off + 1)).toNat
  loggerEntrySize + val

theorem LoggerLog.getEntryLen_pos (log : LoggerLog) (off : ℕ) : 0 < log.getEntryLen off :=
  Nat.add_pos_left (by decide) _

/-- `get_next_entry`: skip whole entries until at least `len` bytes are passed.
The accumulator `count` is the local variable of the loop. -/
def LoggerLog.getNextEntry (log : LoggerLog) (len off count : ℕ) : ℕ :=
  let nr := log.getEntryLen off
  let off := log.loggerOffset (off + nr)
  if count + nr < len then log.getNextEntry len off (count + nr) else off
termination_by len - count
decreasing_by
  have := log.getEntryLen_pos
  grind

/-- `clock_interval`: does `c` lie in the half-open clockwise interval `(a, b]`? -/
def clockInterval (a b c : ℕ) : Bool :=
  if b < a then decide (a < c ∨ b ≥ c) else decide (a < c ∧ b ≥ c)

/-- One offset of `fix_up_readers`: pulled forward when the write passes it. -/
def LoggerLog.fixUp : ℕ :=
  if clockInterval log.wOff (log.loggerOffset (log.wOff + len)) off then
    log.getNextEntry len off 0
  else off

/-- `fix_up_readers` -/
def LoggerLog.fixUpReaders : LoggerLog :=
  { log with
    head := log.fixUp len log.head
    readers := log.readers.map fun reader => { reader with rOff := log.fixUp len reader.rOff } }

/-- `do_write_log` -/
def LoggerLog.doWriteLog (buf : List UInt8) : LoggerLog :=
  { log with
    buffer := store log.buffer log.size log.wOff buf
    wOff := log.loggerOffset (log.wOff + buf.length)
    sign := log.sign + BitVec.ofNat 32 buf.length }

/-- One `struct iovec` of a write, with what its user memory does: `fault` and
`wrapFault` say that the copy up to the end of the ring, respectively the copy to
its start, faults, and which bytes it leaves in the destination. -/
structure Iovec where
  /-- The bytes at `iov_base`; their number is `iov_len`. -/
  base : List UInt8
  fault : Option (List UInt8) := none
  wrapFault : Option (List UInt8) := none

/-- `do_write_log_from_user`: `false` stands for `-EFAULT`. -/
def LoggerLog.doWriteLogFromUser (buf : List UInt8) (iov : Iovec) : Bool × LoggerLog :=
  let len := min buf.length (log.size - log.wOff)
  if len ≠ 0 ∧ iov.fault.isSome then
    (false, { log with buffer := memcpy log.buffer log.wOff ((iov.fault.getD []).take len) })
  else if buf.length ≠ len ∧ iov.wrapFault.isSome then
    let buffer := memcpy log.buffer log.wOff (buf.take len)
    let left := (iov.wrapFault.getD []).take (buf.length - len)
    (false, { log with buffer := memcpy buffer 0 left })
  else (true, log.doWriteLog buf)

/-- The payload loop of `logger_aio_write`. A fault restores the sampled write
offset; `none` stands for `-EFAULT`. -/
def writeSegments (orig hlen : ℕ) : ℕ → List Iovec → LoggerLog → Option ℕ × LoggerLog
  | ret, [], log => (some ret, log)
  | ret, iov :: rest, log =>
    let len := min iov.base.length (hlen - ret)
    match log.doWriteLogFromUser (iov.base.take len) iov with
    | (false, log) => (none, { log with wOff := orig })
    | (true, log) => writeSegments orig hlen (ret + len) rest log

/-- `struct logger_entry` as stored: the little-endian length, then the bytes of
the padding, the ids and the time stamp. -/
def headerBytes : List UInt8 :=
  UInt8.ofNat (len % 256) :: UInt8.ofNat (len / 256) :: List.ofFn stamp

/-- The `header.len` of a write: `min_t(size_t, iocb->ki_left, LOGGER_ENTRY_MAX_PAYLOAD)`. -/
def headerLen (iov : List Iovec) : ℕ :=
  min (iov.map fun v => v.base.length).sum loggerEntryMaxPayload

/-- The critical section of `logger_aio_write`, under `log->mutex`, for a write
offset `orig` that was sampled before the lock was taken. -/
def LoggerLog.aioWriteLocked (orig : ℕ) (stamp : Fin 18 → UInt8) (iov : List Iovec) :
    Option ℕ × LoggerLog :=
  let hlen := headerLen iov
  let log := log.fixUpReaders (loggerEntrySize + hlen)
  let log := log.doWriteLog (headerBytes hlen stamp)
  writeSegments orig hlen 0 iov log

/-- `logger_aio_write`, run without another writer in between. -/
def LoggerLog.loggerAioWrite (iov : List Iovec) : Option ℕ × LoggerLog :=
  if headerLen iov = 0 then (some 0, log) else log.aioWriteLocked log.wOff stamp iov

/-- The counter value that stands for an offset, as `logger_open` and
`warn_overflow` reconstruct it from `log->sign`. -/
def LoggerLog.signAt : BitVec 32 :=
  let sign := log.sign - log.sign % BitVec.ofNat 32 log.size + BitVec.ofNat 32 off
  if log.sign.slt sign then sign - BitVec.ofNat 32 log.size else sign

/-- `logger_open` for reading -/
def LoggerLog.loggerOpen : LoggerLog :=
  { log with readers := log.readers ++ [⟨log.head, log.signAt log.head⟩] }

/-- `logger_release` of the reader at an index -/
def LoggerLog.loggerRelease (i : ℕ) : LoggerLog := { log with readers := log.readers.eraseIdx i }

/-- `is_overflow` -/
def isOverflow (size : ℕ) (cw lw : BitVec 32) : Bool := (BitVec.ofNat 32 size).sle (cw - lw)

/-- The record `warn_overflow` copies to the reader's buffer. -/
def overflowMessage (lost : BitVec 32) : List UInt8 :=
  let text := "some logs might have been lost (" ++ toString lost.toInt ++ " bytes estimated)"
  let bytes := text.toList.map fun c => UInt8.ofNat c.toNat
  UInt8.ofNat (bytes.length + 6) :: List.replicate 19 0 ++
    [0x5, 0x41, 0x45, 0x45, 0x0] ++ bytes ++ [0]

/-- What one `logger_read` call hands back. -/
inductive ReadResult where
  /-- Nothing to read: `-EAGAIN`, `-EINTR`, or the reader sleeps. -/
  | wait
  /-- `-EFAULT` -/
  | fault
  /-- `-EINVAL`: the caller's buffer is too small for the entry. -/
  | inval
  /-- The loss warning. -/
  | warning (bytes : List UInt8)
  /-- One entry of the log. -/
  | entry (bytes : List UInt8)

/-- `logger_read` by the reader at an index, into a buffer of `count` bytes; `fault`
says that a `copy_to_user` faults. -/
def LoggerLog.loggerRead (i count : ℕ) (fault : Bool) : ReadResult × LoggerLog :=
  match log.readers[i]? with
  | none => (.wait, log)
  | some reader =>
    if log.wOff = reader.rOff then (.wait, log)
    else if isOverflow log.size log.sign reader.sign then
      if fault then (.fault, log)
      else
        (.warning (overflowMessage (log.sign - reader.sign)),
          { log with
            readers := log.readers.set i { reader with sign := log.signAt reader.rOff } })
    else
      let ret := log.getEntryLen reader.rOff
      if count < ret then (.inval, log)
      else if fault then (.fault, log)
      else
        (.entry (load log.buffer log.size reader.rOff ret),
          { log with
            readers := log.readers.set i
              { rOff := log.loggerOffset (reader.rOff + ret)
                sign := reader.sign + BitVec.ofNat 32 ret } })

/-- `LOGGER_FLUSH_LOG` of `logger_ioctl` -/
def LoggerLog.flushLog : LoggerLog :=
  { log with
    readers := log.readers.map fun reader => { reader with rOff := log.wOff }
    head := log.wOff }

/-- `LOGGER_GET_LOG_LEN` of `logger_ioctl`: the bytes between an offset and the
write offset. -/
def LoggerLog.logLen : ℕ :=
  if log.wOff ≥ off then log.wOff - off else log.size - off + log.wOff

end AndroidKernel.Logger
