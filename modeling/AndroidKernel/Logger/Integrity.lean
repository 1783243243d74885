import AndroidKernel.Logger.Basic
import Mathlib.Data.Nat.Bitwise

/-!
# Integrity of the logger ring

Every offset that the driver keeps (the head and each reader's) reads the last
entries of the log: the bytes from it up to the write offset are whole entries,
in the order of their writes. A write first pulls forward the offsets it would
overrun, so neither its bytes nor those left by a failed write reach them.
-/

namespace AndroidKernel.Logger

open CircularBuffer List LoggerLog

variable {log : LoggerLog} {off : ℕ} {bytes : List UInt8} {len ret hlen orig : ℕ}
  {es : List (List UInt8)} {log' : LoggerLog} {iov : List Iovec} {e buf rest : List UInt8}

/-- From `off` up to the write offset the ring holds exactly `bytes`. -/
structure Holds (log : LoggerLog) (off : ℕ) (bytes : List UInt8) : Prop where
  off_lt : off < log.size
  length_lt : bytes.length < log.size
  wOff_eq : log.wOff = wrap log.size (off + bytes.length)
  window_eq : window log.buffer log.size off bytes.length = bytes

/-- The bytes of an entry start with the length of its payload. -/
def IsEntry (e : List UInt8) : Prop :=
  ∃ a b rest, e = a :: b :: rest ∧ e.length = loggerEntrySize + (a.toNat + 256 * b.toNat)

theorem LoggerLog.loggerOffset_eq_wrap {n : ℕ} (hpow : ∃ k, log.size = 2 ^ k)
    (hn : n < 2 * log.size) : log.loggerOffset n = wrap log.size n := by
  obtain ⟨k, hk⟩ := hpow
  rw [wrap_eq_mod hn, loggerOffset, hk, Nat.and_two_pow_sub_one_eq_mod]

theorem Holds.wOff_lt (h : Holds log off bytes) : log.wOff < log.size := by
  rw [h.wOff_eq]
  exact wrap_lt (by have := h.off_lt; have := h.length_lt; omega)

theorem Holds.cell_eq {i : ℕ} (h : Holds log off bytes)
    (hi : i < bytes.length) : some (log.buffer (wrap log.size (off + i))) = bytes[i]? := by
  conv_rhs => rw [← h.window_eq]
  rw [window_getElem? (by simpa using hi)]

/-- The length of the readable region, as `LOGGER_GET_LOG_LEN` computes it. -/
theorem Holds.logLen_eq (h : Holds log off bytes) : log.logLen off = bytes.length := by
  have hoff := h.off_lt
  have hlen := h.length_lt
  unfold logLen
  rw [h.wOff_eq]
  unfold wrap
  split_ifs <;> omega

theorem Holds.getEntryLen_eq (h : Holds log off (e ++ rest)) (he : IsEntry e) :
    log.getEntryLen off = e.length := by
  obtain ⟨a, b, tail, rfl, hlen⟩ := he
  have hoff := h.off_lt
  have ha := h.cell_eq (i := 0) (by simp)
  have hb := h.cell_eq (i := 1) (by simp)
  simp only [Nat.add_zero, wrap, if_pos hoff, cons_append, List.getElem?_cons_zero,
    List.getElem?_cons_succ, Option.some.injEq] at ha hb
  rw [hlen]
  unfold getEntryLen
  split
  next hend =>
    have hwrap : ¬ off + 1 < log.size := by omega
    have hzero : off + 1 - log.size = 0 := by omega
    rw [if_neg hwrap, hzero] at hb
    rw [ha, hb]
  next hend =>
    rw [if_pos (by grind)] at hb
    rw [ha, hb]

theorem Holds.skip (h : Holds log off (e ++ rest)) (hpow : ∃ k, log.size = 2 ^ k) :
    Holds log (log.loggerOffset (off + e.length)) rest := by
  have hoff := h.off_lt
  have hlen := h.length_lt
  rw [length_append] at hlen
  rw [loggerOffset_eq_wrap hpow (by omega)]
  have hwin := h.window_eq
  rw [length_append, window_add hoff (by omega)] at hwin
  refine ⟨wrap_lt (by omega), by omega, ?_, (append_inj hwin (by simp)).2⟩
  rw [h.wOff_eq, length_append, wrap_wrap_add hoff (by omega)]

/-- The loop of `get_next_entry`, started inside the readable region with enough
bytes ahead, stops on an entry boundary of that region after passing `len` bytes. -/
theorem getNextEntry_holds (hpow : ∃ k, log.size = 2 ^ k) {count : ℕ}
    (h : Holds log off es.flatten) (hes : ∀ e ∈ es, IsEntry e) (hcount : count < len)
    (hlen : len ≤ count + es.flatten.length) :
    ∃ k ≤ es.length, Holds log (log.getNextEntry len off count) (es.drop k).flatten ∧
      len + (es.drop k).flatten.length ≤ count + es.flatten.length := by
  induction es generalizing off count with
  | nil => simp at hlen; omega
  | cons e es ih =>
    rw [flatten_cons] at h
    rw [flatten_cons, length_append] at hlen
    have hnr : log.getEntryLen off = e.length := h.getEntryLen_eq (hes e (by simp))
    have hnext := h.skip hpow
    rw [getNextEntry]
    simp only [hnr]
    split_ifs with hmore
    · obtain ⟨k, hk, hholds, hpassed⟩ := ih hnext (fun e' he' => hes e' (by simp [he'])) hmore
        (by omega)
      refine ⟨k + 1, by simpa using hk, by simpa using hholds, ?_⟩
      simp only [drop_succ_cons, flatten_cons, length_append]
      omega
    · refine ⟨1, by simp, by simpa using hnext, ?_⟩
      simp only [drop_succ_cons, drop_zero, flatten_cons, length_append]
      omega

/-- `clock_interval` selects the offsets whose readable bytes a write of `len` bytes
would overrun. -/
theorem Holds.clockInterval_iff (h : Holds log off bytes) (hpow : ∃ k, log.size = 2 ^ k)
    (hlen : len < log.size) :
    clockInterval log.wOff (log.loggerOffset (log.wOff + len)) off = true ↔
      0 < bytes.length ∧ log.size ≤ bytes.length + len := by
  have hoff := h.off_lt
  have hbytes := h.length_lt
  have hw := h.wOff_lt
  rw [loggerOffset_eq_wrap hpow (by omega)]
  have hwoff := h.wOff_eq
  unfold clockInterval wrap
  unfold wrap at hwoff
  split_ifs at hwoff ⊢ <;> simp only [decide_eq_true_eq] <;> omega

/-- Fixing up an offset drops whole entries until a write of `len` bytes fits behind
the bytes that the offset still reads. -/
theorem fixUp_holds (hpow : ∃ k, log.size = 2 ^ k)
    (hsize : 2 * loggerEntryMaxLen ≤ log.size) (hpos : 0 < len) (hmax : len ≤ loggerEntryMaxLen)
    (h : Holds log off es.flatten) (hes : ∀ e ∈ es, IsEntry e) :
    ∃ k ≤ es.length, Holds log (log.fixUp len off) (es.drop k).flatten ∧
      (es.drop k).flatten.length + len < log.size := by
  have hlen := h.length_lt
  unfold fixUp
  split_ifs with hin
  · obtain ⟨hnonempty, hover⟩ := (h.clockInterval_iff hpow (by omega)).mp hin
    obtain ⟨k, hk, hholds, hpassed⟩ := getNextEntry_holds hpow h hes hpos (by omega)
    exact ⟨k, hk, hholds, by omega⟩
  · refine ⟨0, Nat.zero_le _, by simpa using h, ?_⟩
    have hout := mt (h.clockInterval_iff hpow (by omega : len < log.size)).mpr hin
    simp only [drop_zero]
    omega

theorem Holds.doWriteLog {src : List UInt8} (h : Holds log off bytes) (hpow : ∃ k, log.size = 2 ^ k)
    (hroom : bytes.length + src.length < log.size) :
    Holds (log.doWriteLog src) off (bytes ++ src) := by
  have hoff := h.off_lt
  have hw := h.wOff_lt
  refine ⟨hoff, by rwa [length_append], ?_, ?_⟩
  · change log.loggerOffset (log.wOff + src.length) = wrap log.size (off + (bytes ++ src).length)
    rw [loggerOffset_eq_wrap hpow (by omega), h.wOff_eq,
      wrap_wrap_add hoff (by omega), length_append]
  · change window (store log.buffer log.size log.wOff src) log.size off (bytes ++ src).length = _
    rw [length_append, h.wOff_eq, window_store_append hoff (by omega), h.window_eq]

/-- A faulting copy still only stores at the write offset, and no more bytes than it
was asked to. -/
theorem doWriteLogFromUser_false {iov : Iovec}
    (h : log.doWriteLogFromUser buf iov = (false, log')) :
    ∃ src : List UInt8, src.length ≤ buf.length ∧
      log' = { log with buffer := store log.buffer log.size log.wOff src } := by
  unfold doWriteLogFromUser at h
  simp only at h
  split_ifs at h with hfirst hsecond
  · refine ⟨(iov.fault.getD []).take (min buf.length (log.size - log.wOff)),
      by simp only [length_take]; omega, ?_⟩
    rw [← (Prod.mk.inj h).2, store_eq_memcpy (by simp only [length_take]; omega)]
  · have hlen : min buf.length (log.size - log.wOff) = log.size - log.wOff := by omega
    rw [hlen] at h
    refine ⟨buf.take (log.size - log.wOff) ++
      (iov.wrapFault.getD []).take (buf.length - (log.size - log.wOff)), by simp; omega, ?_⟩
    rw [← (Prod.mk.inj h).2, ← memcpy_memcpy_eq_store (by simp; omega)]
  · simp at h

theorem doWriteLogFromUser_true {iov : Iovec}
    (h : log.doWriteLogFromUser buf iov = (true, log')) : log' = log.doWriteLog buf := by
  unfold doWriteLogFromUser at h
  simp only at h
  split_ifs at h
  · simp at h
  · simp at h
  · exact (Prod.mk.inj h).2.symm

/-- Two logs that differ at most in their bytes, write offset and counter. -/
structure SameOffsets (log log' : LoggerLog) : Prop where
  size_eq : log'.size = log.size
  head_eq : log'.head = log.head
  readers_eq : log'.readers = log.readers

/-- A round of the payload loop: a copy that faults ends it, another one stores its bytes. -/
theorem writeSegments_cons (hlen ret : ℕ) (v : Iovec) (rest : List Iovec) (log : LoggerLog) :
    (∃ src : List UInt8, src.length ≤ min v.base.length (hlen - ret) ∧
      ∀ orig, writeSegments orig hlen ret (v :: rest) log = (none,
        { log with buffer := store log.buffer log.size log.wOff src, wOff := orig })) ∨
    ∀ orig, writeSegments orig hlen ret (v :: rest) log =
      writeSegments orig hlen (ret + min v.base.length (hlen - ret)) rest
        (log.doWriteLog (v.base.take (min v.base.length (hlen - ret)))) := by
  obtain ⟨ok, log', hcopy⟩ : ∃ ok log', log.doWriteLogFromUser
      (v.base.take (min v.base.length (hlen - ret))) v = (ok, log') := ⟨_, _, rfl⟩
  simp only [writeSegments, hcopy]
  cases ok with
  | false =>
    obtain ⟨src, hsrc, rfl⟩ := doWriteLogFromUser_false hcopy
    exact .inl ⟨src, by simpa using hsrc, fun _ => rfl⟩
  | true =>
    obtain rfl := doWriteLogFromUser_true hcopy
    exact .inr fun _ => rfl

/-- The payload bytes of a write, before they are cut to the entry's length. -/
def payload (iov : List Iovec) : List UInt8 := (iov.map fun v => v.base).flatten

theorem payload_length (iov : List Iovec) :
    (payload iov).length = (iov.map fun v => v.base.length).sum := by
  simp [payload, Function.comp_def]

/-- What the payload loop does: it moves no reader, and it goes back to the sampled write offset
after a fault, or counts the bytes it stored. -/
theorem writeSegments_spec (orig hlen ret : ℕ) (iov : List Iovec) (log : LoggerLog) :
    (∃ log', SameOffsets log log' ∧ writeSegments orig hlen ret iov log = (none, log')) ∨
    ∃ log', SameOffsets log log' ∧ writeSegments orig hlen ret iov log =
      (some (ret + min (payload iov).length (hlen - ret)), log') := by
  induction iov generalizing ret log with
  | nil => exact .inr ⟨log, ⟨rfl, rfl, rfl⟩, by simp [writeSegments, payload]⟩
  | cons v rest ih =>
    rcases writeSegments_cons hlen ret v rest log with ⟨src, -, heq⟩ | heq
    · exact .inl ⟨_, by constructor <;> rfl, heq orig⟩
    · rw [heq]
      rcases ih (ret + min v.base.length (hlen - ret))
        (log.doWriteLog (v.base.take (min v.base.length (hlen - ret)))) with
        ⟨log', hsame, hrest⟩ | ⟨log', hsame, hrest⟩
      · exact .inl ⟨log', ⟨hsame.size_eq, hsame.head_eq, hsame.readers_eq⟩, hrest⟩
      · refine .inr ⟨log', ⟨hsame.size_eq, hsame.head_eq, hsame.readers_eq⟩, ?_⟩
        have hlen : (payload (v :: rest)).length = v.base.length + (payload rest).length := by
          simp [payload]
        rw [hrest, hlen]
        congr 2
        omega

/-- What an offset reads after a write: `after` when the write succeeded, `before` when
it faulted. -/
def WriteHolds (off : ℕ) (before after : List UInt8) : Option ℕ × LoggerLog → Prop
  | (some _, log) => Holds log off after
  | (none, log) => Holds log off before

/-- The payload loop appends the rest of the payload to what an offset reads when it
succeeds, and leaves the offset reading the entries before this write when it faults. -/
theorem writeSegments_holds {before : List UInt8} {acc : List UInt8}
    (h : Holds log off (before ++ acc)) (hpow : ∃ k, log.size = 2 ^ k)
    (horig : orig = wrap log.size (off + before.length))
    (hroom : before.length + acc.length + (hlen - ret) < log.size) :
    WriteHolds off before (before ++ (acc ++ (payload iov).take (hlen - ret)))
      (writeSegments orig hlen ret iov log) := by
  induction iov generalizing ret acc log with
  | nil => simpa [writeSegments, payload, WriteHolds] using h
  | cons v rest ih =>
    have hcut : (v.base.take (min v.base.length (hlen - ret))).length =
        min v.base.length (hlen - ret) := by simp
    rcases writeSegments_cons hlen ret v rest log with ⟨src, hsrc, heq⟩ | heq
    · rw [heq]
      have hlen := h.length_lt
      have hwoff := h.wOff_eq
      rw [length_append] at hlen hwoff
      refine ⟨h.off_lt, by change before.length < log.size; omega, horig, ?_⟩
      change window (store log.buffer log.size log.wOff src) log.size off before.length = before
      have hwin : window (store log.buffer log.size log.wOff src) log.size off
          (before.length + acc.length) = before ++ acc := by
        rw [hwoff, window_store_before h.off_lt (by omega), ← length_append, h.window_eq]
      rw [window_add h.off_lt (by omega)] at hwin
      exact (append_inj hwin (by simp)).1
    · rw [heq]
      have hnext : Holds (log.doWriteLog (v.base.take (min v.base.length (hlen - ret)))) off
          (before ++ (acc ++ v.base.take (min v.base.length (hlen - ret)))) := by
        rw [← append_assoc]
        exact h.doWriteLog hpow (by rw [length_append, hcut]; omega)
      have hleft : before.length + (acc ++ v.base.take (min v.base.length (hlen - ret))).length +
          (hlen - (ret + min v.base.length (hlen - ret))) < log.size := by
        rw [length_append, hcut]
        omega
      have hrest := ih hnext hpow horig hleft
      have hpayload : v.base.take (min v.base.length (hlen - ret)) ++
          (payload rest).take (hlen - (ret + min v.base.length (hlen - ret))) =
            (payload (v :: rest)).take (hlen - ret) := by
        simp only [payload, map_cons, flatten_cons, take_append]
        congr 1
        · rw [Nat.min_comm, ← take_take, take_length]
        · congr 1
          omega
      simpa [hpayload] using hrest

theorem headerBytes_length (len : ℕ) (stamp : Fin 18 → UInt8) :
    (headerBytes len stamp).length = loggerEntrySize := by
  simp [headerBytes, loggerEntrySize]

/-- The bytes of the entry that a write asks for. -/
def entryBytes (stamp : Fin 18 → UInt8) (iov : List Iovec) : List UInt8 :=
  headerBytes (headerLen iov) stamp ++ (payload iov).take (headerLen iov)

theorem headerLen_le (iov : List Iovec) : headerLen iov ≤ loggerEntryMaxPayload :=
  Nat.min_le_right _ _

theorem entryBytes_length (stamp : Fin 18 → UInt8) (iov : List Iovec) :
    (entryBytes stamp iov).length = loggerEntrySize + headerLen iov := by
  have hle : headerLen iov ≤ (payload iov).length := by
    rw [payload_length]
    exact Nat.min_le_left _ _
  rw [entryBytes, length_append, headerBytes_length, length_take, Nat.min_eq_left hle]

theorem isEntry_entryBytes (stamp : Fin 18 → UInt8) (iov : List Iovec) :
    IsEntry (entryBytes stamp iov) := by
  refine ⟨UInt8.ofNat (headerLen iov % 256), UInt8.ofNat (headerLen iov / 256),
    List.ofFn stamp ++ (payload iov).take (headerLen iov), rfl, ?_⟩
  have hmax : headerLen iov ≤ 4076 := headerLen_le iov
  rw [entryBytes_length, UInt8.toNat_ofNat_of_lt' (by omega : headerLen iov % 256 < 2 ^ 8),
    UInt8.toNat_ofNat_of_lt' (by omega : headerLen iov / 256 < 2 ^ 8)]
  omega

theorem Holds.congr (h : Holds log off bytes) (hsize : log'.size = log.size)
    (hbuffer : log'.buffer = log.buffer) (hwoff : log'.wOff = log.wOff) : Holds log' off bytes := by
  refine ⟨?_, ?_, ?_, ?_⟩
  · rw [hsize]; exact h.off_lt
  · rw [hsize]; exact h.length_lt
  · rw [hsize, hwoff]; exact h.wOff_eq
  · rw [hsize, hbuffer]; exact h.window_eq

/-- A write behind bytes that leave room for it appends its entry to them, or leaves them as
they are when it faults. -/
theorem aioWriteLocked_holds_of_room (hpow : ∃ k, log.size = 2 ^ k) (h : Holds log off bytes)
    (hroom : bytes.length + (loggerEntrySize + headerLen iov) < log.size) (stamp : Fin 18 → UInt8) :
    WriteHolds off bytes (bytes ++ entryBytes stamp iov)
      (log.aioWriteLocked log.wOff stamp iov) := by
  have hlen : (headerBytes (headerLen iov) stamp).length = loggerEntrySize := headerBytes_length _ _
  have hring : Holds (log.fixUpReaders (loggerEntrySize + headerLen iov)) _ _ := h.congr rfl rfl rfl
  have hstart := hring.doWriteLog hpow
    (show _ + (headerBytes (headerLen iov) stamp).length < log.size by rw [hlen]; omega)
  exact writeSegments_holds hstart hpow h.wOff_eq
    (show _ + _ + (headerLen iov - 0) < log.size by rw [hlen]; omega)

/-- An offset that reads the entries `es` before a write reads, once fixed up, a tail of
them, followed by the new entry when the write succeeds. -/
theorem aioWriteLocked_holds (hpow : ∃ k, log.size = 2 ^ k)
    (hsize : 2 * loggerEntryMaxLen ≤ log.size) (h : Holds log off es.flatten)
    (hes : ∀ e ∈ es, IsEntry e) (stamp : Fin 18 → UInt8) (iov : List Iovec) :
    ∃ k ≤ es.length, WriteHolds (log.fixUp (loggerEntrySize + headerLen iov) off)
      (es.drop k).flatten ((es.drop k).flatten ++ entryBytes stamp iov)
      (log.aioWriteLocked log.wOff stamp iov) := by
  have hmax := headerLen_le iov
  have hentry : loggerEntrySize + loggerEntryMaxPayload = loggerEntryMaxLen := by decide
  have hhead : 0 < loggerEntrySize := by decide
  obtain ⟨k, hk, hfixed, hroom⟩ := fixUp_holds hpow hsize (by omega)
    (by omega : loggerEntrySize + headerLen iov ≤ loggerEntryMaxLen) h hes
  exact ⟨k, hk, aioWriteLocked_holds_of_room hpow hfixed hroom stamp⟩

end AndroidKernel.Logger
