import AndroidKernel.Logger.Integrity

/-!
# Runs of the logger

A history pairs the driver's state with what an observer knows: the entries
written so far, in order, and for each open reader the entries it was handed.
The invariant says which of the written entries each offset still reads; it is
preserved by every operation and gives the integrity of the ring over all runs.
-/

namespace AndroidKernel.Logger

open CircularBuffer List LoggerLog Option

variable {log' : LoggerLog} {i : ℕ}

/-- One call into the driver, serialised by `log->mutex`. -/
inductive Op where
  | write (stamp : Fin 18 → UInt8) (iov : List Iovec)
  | openReader
  | read (i count : ℕ) (fault : Bool)
  | flush
  | release (i : ℕ)

/-- The driver's state with the entries written and those seen by each open reader. -/
structure History where
  log : LoggerLog
  /-- The successfully written entries, in write order. -/
  written : List (List UInt8)
  /-- For each open reader, the entries it was handed, in order. -/
  seen : List (List (List UInt8))

/-- The history of an unused log. -/
def History.init (size : ℕ) : History := ⟨defineLoggerDevice size, [], []⟩

/-- The history after one more call. -/
def History.step (h : History) : Op → History
  | .write stamp iov =>
    match h.log.loggerAioWrite stamp iov with
    | (some 0, log) => { h with log := log }
    | (some _, log) => { h with log := log, written := h.written ++ [entryBytes stamp iov] }
    | (none, log) => { h with log := log }
  | .openReader => { h with log := h.log.loggerOpen, seen := h.seen ++ [[]] }
  | .read i count fault =>
    match h.log.loggerRead i count fault with
    | (.entry bytes, log) => { h with log := log, seen := h.seen.modify i (· ++ [bytes]) }
    | (_, log) => { h with log := log }
  | .flush => { h with log := h.log.flushLog }
  | .release i => { h with log := h.log.loggerRelease i, seen := h.seen.eraseIdx i }

/-- The history of a sequence of calls on an unused log. -/
def History.run (size : ℕ) (ops : List Op) : History := ops.foldl History.step (History.init size)

/-- An offset reads the written entries from the `j`-th on. -/
def Tracks (log : LoggerLog) (written : List (List UInt8)) (off j : ℕ) : Prop :=
  j ≤ written.length ∧ Holds log off (written.drop j).flatten

/-- A reader's offset tracks the written entries, and what the reader saw is a
subsequence of the entries before that point. -/
def ReaderTracks (log : LoggerLog) (written : List (List UInt8)) (off : ℕ)
    (seen : List (List UInt8)) : Prop :=
  ∃ j, Tracks log written off j ∧ seen.Sublist (written.take j)

/-- The invariant of all histories of a log of the given size. -/
structure History.Inv (size : ℕ) (h : History) : Prop where
  size_eq : h.log.size = size
  entries : ∀ e ∈ h.written, IsEntry e
  head_tracks : ∃ j, Tracks h.log h.written h.log.head j
  seen_length : h.seen.length = h.log.readers.length
  readers_track : ∀ (i : ℕ) (reader : LoggerReader) (seen : List (List UInt8)),
    h.log.readers[i]? = some reader → h.seen[i]? = some seen →
      ReaderTracks h.log h.written reader.rOff seen

variable {size : ℕ} {h : History} {written : List (List UInt8)} {log : LoggerLog} {off j : ℕ}

theorem Tracks.congr (h : Tracks log written off j)
    (hsize : log'.size = log.size) (hbuffer : log'.buffer = log.buffer)
    (hwoff : log'.wOff = log.wOff) : Tracks log' written off j :=
  ⟨h.1, h.2.congr hsize hbuffer hwoff⟩

theorem Tracks.wOff
    (h : Tracks log written off j) : Tracks log written log.wOff written.length := by
  have hlt := h.2.wOff_lt
  refine ⟨le_rfl, hlt, ?_, ?_, ?_⟩
  · simp only [drop_length, flatten_nil, length_nil]
    omega
  · simp [wrap, hlt]
  · simp [window]

theorem inv_init (hsize : 0 < size) : (History.init size).Inv size where
  size_eq := rfl
  entries := by simp [History.init]
  head_tracks := ⟨0, le_rfl, hsize, hsize, by simp [History.init, defineLoggerDevice, wrap, hsize],
    rfl⟩
  seen_length := rfl
  readers_track := by simp [History.init]

/-- A write keeps every offset on the written entries: it moves past whole entries, and
the new entry is added at the end when the write succeeds. -/
theorem Tracks.aioWriteLocked (h : Tracks log written off j) (hpow : ∃ k, log.size = 2 ^ k)
    (hsize : 2 * loggerEntryMaxLen ≤ log.size) (hentries : ∀ e ∈ written, IsEntry e)
    (stamp : Fin 18 → UInt8) (iov : List Iovec) :
    ∃ j', j ≤ j' ∧ j' ≤ written.length ∧
      match log.aioWriteLocked log.wOff stamp iov with
      | (some _, log') => Tracks log' (written ++ [entryBytes stamp iov])
          (log.fixUp (loggerEntrySize + headerLen iov) off) j'
      | (none, log') => Tracks log' written
          (log.fixUp (loggerEntrySize + headerLen iov) off) j' := by
  obtain ⟨hj, hholds⟩ := h
  obtain ⟨k, hk, hwrite⟩ := aioWriteLocked_holds hpow hsize hholds
    (fun e he => hentries e (mem_of_mem_drop he)) stamp iov
  rw [length_drop] at hk
  have hj' : j + k ≤ written.length := by omega
  refine ⟨j + k, by omega, hj', ?_⟩
  rw [drop_drop] at hwrite
  obtain ⟨ret, log', hresult⟩ : ∃ ret log', log.aioWriteLocked log.wOff stamp iov = (ret, log') :=
    ⟨_, _, rfl⟩
  rw [hresult] at hwrite ⊢
  cases ret with
  | none => exact ⟨hj', hwrite⟩
  | some n =>
    refine ⟨by simp; omega, ?_⟩
    rw [drop_append_of_le_length hj', flatten_append]
    simpa [WriteHolds] using hwrite

/-- What the critical section of a write does: the offsets are the fixed-up ones, and it faults or
returns the length of the payload. -/
theorem aioWriteLocked_spec (log : LoggerLog) (orig : ℕ) (stamp : Fin 18 → UInt8)
    (iov : List Iovec) :
    ∃ log', SameOffsets (log.fixUpReaders (loggerEntrySize + headerLen iov)) log' ∧
      (log.aioWriteLocked orig stamp iov = (none, log') ∨
        log.aioWriteLocked orig stamp iov = (some (headerLen iov), log')) := by
  rcases writeSegments_spec orig (headerLen iov) 0 iov
    ((log.fixUpReaders (loggerEntrySize + headerLen iov)).doWriteLog
      (headerBytes (headerLen iov) stamp)) with ⟨log', hsame, heq⟩ | ⟨log', hsame, heq⟩
  · exact ⟨log', ⟨hsame.size_eq, hsame.head_eq, hsame.readers_eq⟩, .inl heq⟩
  · have hle : headerLen iov ≤ (payload iov).length := by
      rw [payload_length]
      exact Nat.min_le_left _ _
    rw [Nat.zero_add, Nat.sub_zero, Nat.min_eq_right hle] at heq
    exact ⟨log', ⟨hsame.size_eq, hsame.head_eq, hsame.readers_eq⟩, .inr heq⟩

section

variable (hinv : h.Inv size)
include hinv

theorem History.Inv.of_write {written' : List (List UInt8)} {len : ℕ}
    (hsame : SameOffsets (h.log.fixUpReaders len) log') (hwritten : h.written <+: written')
    (hentries : ∀ e ∈ written', IsEntry e) (htracks : ∀ off j, Tracks h.log h.written off j →
      ∃ j', j ≤ j' ∧ j' ≤ h.written.length ∧ Tracks log' written' (h.log.fixUp len off) j') :
    History.Inv size { h with log := log', written := written' } where
  size_eq := hsame.size_eq.trans hinv.size_eq
  entries := hentries
  head_tracks := by
    obtain ⟨j, hj⟩ := hinv.head_tracks
    obtain ⟨j', _, _, hj'⟩ := htracks _ j hj
    change ∃ j, Tracks log' written' log'.head j
    rw [hsame.head_eq]
    exact ⟨j', hj'⟩
  seen_length := by
    change h.seen.length = log'.readers.length
    rw [hsame.readers_eq]
    simpa [fixUpReaders] using hinv.seen_length
  readers_track := by
    intro i reader seen hreader hseen
    change log'.readers[i]? = some reader at hreader
    rw [hsame.readers_eq, fixUpReaders, List.getElem?_map, map_eq_some_iff] at hreader
    obtain ⟨old, hold, rfl⟩ := hreader
    obtain ⟨j, hj, hsub⟩ := hinv.readers_track i old seen hold hseen
    obtain ⟨j', hle, hj'len, hj'⟩ := htracks _ j hj
    refine ⟨j', hj', hsub.trans ?_⟩
    obtain ⟨added, rfl⟩ := hwritten
    rw [take_append_of_le_length hj'len]
    exact (take_prefix_take_left hle).sublist

theorem History.Inv.write (hpow : ∃ k, size = 2 ^ k) (hsize : 2 * loggerEntryMaxLen ≤ size)
    (stamp : Fin 18 → UInt8) (iov : List Iovec) : (h.step (.write stamp iov)).Inv size := by
  have hsize' := hinv.size_eq
  unfold History.step loggerAioWrite
  by_cases hnull : headerLen iov = 0
  · simpa [hnull] using hinv
  simp only [hnull, if_false]
  have htracks : ∀ off j, Tracks h.log h.written off j → _ := fun off j hj =>
    hj.aioWriteLocked (by rwa [hsize']) (by rwa [hsize']) hinv.entries stamp iov
  obtain ⟨log', hsame, heq | heq⟩ := aioWriteLocked_spec h.log h.log.wOff stamp iov
  · rw [heq]
    simp only [heq] at htracks
    exact hinv.of_write hsame (prefix_refl _) hinv.entries htracks
  · rw [heq]
    simp only [heq] at htracks
    obtain ⟨n, hn⟩ := Nat.exists_eq_succ_of_ne_zero hnull
    rw [hn] at htracks ⊢
    refine hinv.of_write (hn ▸ hsame) (prefix_append _ _) ?_ htracks
    intro e he
    rcases List.mem_append.mp he with he | he
    · exact hinv.entries e he
    · rw [List.mem_singleton.mp he]
      exact isEntry_entryBytes stamp iov

theorem History.Inv.openReader : (h.step .openReader).Inv size where
  size_eq := hinv.size_eq
  entries := hinv.entries
  head_tracks := by
    obtain ⟨j, hj⟩ := hinv.head_tracks
    exact ⟨j, hj.congr rfl rfl rfl⟩
  seen_length := by
    have hlen := hinv.seen_length
    simp [History.step, loggerOpen, hlen]
  readers_track := by
    intro i reader seen hreader hseen
    have hlen := hinv.seen_length
    simp only [History.step, loggerOpen, List.getElem?_append] at hreader hseen
    rw [hlen] at hseen
    split_ifs at hreader hseen with hi
    · obtain ⟨j, hj, hsub⟩ := hinv.readers_track i reader seen hreader hseen
      exact ⟨j, hj.congr rfl rfl rfl, hsub⟩
    · obtain ⟨_, hold⟩ := List.getElem?_eq_some_iff.mp hreader
      obtain ⟨_, hnew⟩ := List.getElem?_eq_some_iff.mp hseen
      obtain ⟨j, hj⟩ := hinv.head_tracks
      rw [getElem_singleton] at hold hnew
      subst hold hnew
      exact ⟨j, hj.congr rfl rfl rfl, nil_sublist _⟩

theorem History.Inv.flush : (h.step .flush).Inv size where
  size_eq := hinv.size_eq
  entries := hinv.entries
  head_tracks := by
    obtain ⟨j, hj⟩ := hinv.head_tracks
    exact ⟨_, hj.wOff.congr rfl rfl rfl⟩
  seen_length := by simpa [History.step, flushLog] using hinv.seen_length
  readers_track := by
    intro i reader seen hreader hseen
    simp only [History.step, flushLog, List.getElem?_map, map_eq_some_iff] at hreader
    obtain ⟨old, hold, rfl⟩ := hreader
    obtain ⟨j, hj, hsub⟩ := hinv.readers_track i old seen hold hseen
    refine ⟨_, hj.wOff.congr rfl rfl rfl, hsub.trans ?_⟩
    exact (take_prefix_take_left hj.1).sublist

theorem History.Inv.release (i : ℕ) : (h.step (.release i)).Inv size where
  size_eq := hinv.size_eq
  entries := hinv.entries
  head_tracks := by
    obtain ⟨j, hj⟩ := hinv.head_tracks
    exact ⟨j, hj.congr rfl rfl rfl⟩
  seen_length := by
    have hlen := hinv.seen_length
    simp only [History.step, loggerRelease, length_eraseIdx, hlen]
  readers_track := by
    intro k reader seen hreader hseen
    simp only [History.step, loggerRelease, List.getElem?_eraseIdx] at hreader hseen
    split_ifs at hreader hseen with hk
    all_goals
      obtain ⟨j, hj, hsub⟩ := hinv.readers_track _ _ _ hreader hseen
      exact ⟨j, hj.congr rfl rfl rfl, hsub⟩

end

/-- An offset that has not reached the write offset tracks at least one entry, whose
length is stored there. -/
theorem Tracks.next (h : Tracks log written off j) (hentries : ∀ e ∈ written, IsEntry e)
    (hoff : off ≠ log.wOff) : ∃ e, written[j]? = some e ∧
      written.drop j = e :: written.drop (j + 1) ∧ log.getEntryLen off = e.length := by
  obtain ⟨hj, hholds⟩ := h
  have hlt : j < written.length := by
    by_contra hge
    rw [drop_eq_nil_of_le (by omega)] at hholds
    apply hoff
    rw [hholds.wOff_eq]
    simp [wrap, hholds.off_lt]
  have hcons := drop_eq_getElem_cons hlt
  refine ⟨written[j], List.getElem?_eq_getElem hlt, hcons, ?_⟩
  rw [hcons, flatten_cons] at hholds
  exact hholds.getEntryLen_eq (hentries _ (getElem_mem hlt))

theorem Tracks.read {e : List UInt8} (h : Tracks log written off j) (hpow : ∃ k, log.size = 2 ^ k)
    (he : written[j]? = some e) (hlen : log.getEntryLen off = e.length) :
    load log.buffer log.size off (log.getEntryLen off) = e ∧
      Tracks log written (log.loggerOffset (off + log.getEntryLen off)) (j + 1) := by
  obtain ⟨hj, rfl⟩ := List.getElem?_eq_some_iff.mp he
  obtain ⟨-, hholds⟩ := h
  rw [drop_eq_getElem_cons hj, flatten_cons] at hholds
  have hlt := hholds.length_lt
  have hwin := hholds.window_eq
  rw [length_append] at hlt hwin
  rw [hlen, load_eq_window hholds.off_lt (by omega)]
  refine ⟨?_, hj, hholds.skip hpow⟩
  rw [window_add hholds.off_lt (by omega)] at hwin
  exact (append_inj hwin (by simp)).1

theorem History.Inv.of_read {old new : LoggerReader} {seen : List (List (List UInt8))}
    (hinv : h.Inv size) (hold : h.log.readers[i]? = some old) (hlen : seen.length = h.seen.length)
    (hother : ∀ k ≠ i, seen[k]? = h.seen[k]?)
    (hnew : ∀ was now, h.seen[i]? = some was → seen[i]? = some now →
      ReaderTracks h.log h.written old.rOff was → ReaderTracks h.log h.written new.rOff now) :
    History.Inv size
      { h with log := { h.log with readers := h.log.readers.set i new }, seen := seen } where
  size_eq := hinv.size_eq
  entries := hinv.entries
  head_tracks := by
    obtain ⟨j, hj⟩ := hinv.head_tracks
    exact ⟨j, hj.congr rfl rfl rfl⟩
  seen_length := by simpa [hlen] using hinv.seen_length
  readers_track := by
    intro k reader now hreader hnow
    simp only [List.getElem?_set] at hreader
    have hbound := (List.getElem?_eq_some_iff.mp hold).1
    split_ifs at hreader with hki
    · subst hki
      obtain rfl := some.inj hreader
      have hin : i < h.seen.length := by rw [hinv.seen_length]; exact hbound
      have hwas := List.getElem?_eq_getElem hin
      obtain ⟨j, hj, hsub⟩ := hnew _ now hwas hnow (hinv.readers_track i old _ hold hwas)
      exact ⟨j, hj.congr rfl rfl rfl, hsub⟩
    · dsimp only at hnow
      rw [hother k (Ne.symm hki)] at hnow
      obtain ⟨j, hj, hsub⟩ := hinv.readers_track k reader now hreader hnow
      exact ⟨j, hj.congr rfl rfl rfl, hsub⟩

/-- A read does nothing, or warns of a loss that the counters show and sets the reader's counter
anew, or returns the entry at the reader's offset and moves the reader past it. -/
theorem loggerRead_cases (log : LoggerLog) (i count : ℕ) (fault : Bool) :
    (∃ r, log.loggerRead i count fault = (r, log) ∧ (∀ bytes, r ≠ .entry bytes) ∧
      ∀ bytes, r ≠ .warning bytes) ∨
    (∃ reader bytes, log.readers[i]? = some reader ∧
      isOverflow log.size log.sign reader.sign = true ∧
      log.loggerRead i count fault = (.warning bytes,
        { log with
          readers := log.readers.set i { reader with sign := log.signAt reader.rOff } })) ∨
    (∃ reader, log.readers[i]? = some reader ∧ reader.rOff ≠ log.wOff ∧
      isOverflow log.size log.sign reader.sign = false ∧
      log.loggerRead i count fault =
        (.entry (load log.buffer log.size reader.rOff (log.getEntryLen reader.rOff)),
          { log with
            readers := log.readers.set i
              { rOff := log.loggerOffset (reader.rOff + log.getEntryLen reader.rOff)
                sign := reader.sign + BitVec.ofNat 32 (log.getEntryLen reader.rOff) } })) := by
  unfold loggerRead
  cases hreader : log.readers[i]? with
  | none => exact .inl ⟨.wait, rfl, by simp, by simp⟩
  | some reader =>
    dsimp only
    split_ifs with hempty hover hfault hshort hfault
    · exact .inl ⟨.wait, rfl, by simp, by simp⟩
    · exact .inl ⟨.fault, rfl, by simp, by simp⟩
    · exact .inr (.inl ⟨reader, _, rfl, hover, rfl⟩)
    · exact .inl ⟨.inval, rfl, by simp, by simp⟩
    · exact .inl ⟨.fault, rfl, by simp, by simp⟩
    · exact .inr (.inr ⟨reader, rfl, Ne.symm hempty, by simpa using hover, rfl⟩)

theorem History.Inv.read (hinv : h.Inv size) (hpow : ∃ k, size = 2 ^ k)
    (i count : ℕ) (fault : Bool) : (h.step (.read i count fault)).Inv size := by
  simp only [History.step]
  rcases loggerRead_cases h.log i count fault with ⟨r, hr, hne, -⟩ |
    ⟨reader, bytes, hreader, -, hr⟩ | ⟨reader, hreader, hempty, -, hr⟩
  · rw [hr]
    cases r with
    | entry bytes => exact absurd rfl (hne bytes)
    | _ => exact hinv
  · rw [hr]
    refine hinv.of_read hreader rfl (fun _ _ => rfl) ?_
    intro was now hwas hnow htracks
    rw [hwas] at hnow
    obtain rfl := some.inj hnow
    exact htracks
  · rw [hr]
    refine hinv.of_read hreader (by simp) ?_ ?_
    · intro k hk
      simp [Ne.symm hk]
    · rintro was now hwas hnow ⟨j, hj, hsub⟩
      obtain ⟨e, he, -, hlen⟩ := hj.next hinv.entries hempty
      obtain ⟨hbytes, hrest⟩ := hj.read (by rwa [hinv.size_eq]) he hlen
      simp only [List.getElem?_modify, if_true, hwas, Option.map_eq_map, Option.map_some,
        some.injEq] at hnow
      subst hnow
      refine ⟨j + 1, hrest, ?_⟩
      rw [hbytes, take_add_one, he]
      exact hsub.append (List.Sublist.refl _)

theorem inv_step (hinv : h.Inv size) (hpow : ∃ k, size = 2 ^ k)
    (hsize : 2 * loggerEntryMaxLen ≤ size) (op : Op) : (h.step op).Inv size := by
  cases op with
  | write stamp iov => exact hinv.write hpow hsize stamp iov
  | openReader => exact hinv.openReader
  | read i count fault => exact hinv.read hpow i count fault
  | flush => exact hinv.flush
  | release i => exact hinv.release i

theorem inv_run (hpow : ∃ k, size = 2 ^ k) (hsize : 2 * loggerEntryMaxLen ≤ size)
    (ops : List Op) : (History.run size ops).Inv size := by
  have hpos : 0 < loggerEntryMaxLen := by decide
  unfold History.run
  have hinit : (History.init size).Inv size := inv_init (by omega)
  generalize History.init size = h at hinit
  induction ops generalizing h with
  | nil => exact hinit
  | cons op ops ih => exact ih _ (inv_step hinit hpow hsize op)

/-- What is promised of an offset: the bytes from it up to the write offset are a run of
last written entries; unless it has reached the write offset, an entry starts there; and
`get_next_entry`, called as `fix_up_readers` does, ends on a boundary of these entries. -/
def ReadsSuffix (log : LoggerLog) (written : List (List UInt8)) (off : ℕ) : Prop :=
  ∃ es, es <:+ written ∧ window log.buffer log.size off (log.logLen off) = es.flatten ∧
    ((off = log.wOff ∧ es = []) ∨ ∃ e rest, es = e :: rest ∧ log.getEntryLen off = e.length) ∧
    ∀ len, 0 < len → len ≤ loggerEntryMaxLen →
      clockInterval log.wOff (log.loggerOffset (log.wOff + len)) off = true → ∃ es', es' <:+ es ∧
          window log.buffer log.size (log.getNextEntry len off 0)
            (log.logLen (log.getNextEntry len off 0)) = es'.flatten

theorem Tracks.readsSuffix (h : Tracks log written off j) (hpow : ∃ k, log.size = 2 ^ k)
    (hsize : 2 * loggerEntryMaxLen ≤ log.size) (hentries : ∀ e ∈ written, IsEntry e) :
    ReadsSuffix log written off := by
  refine ⟨written.drop j, drop_suffix _ _, ?_, ?_, ?_⟩
  · rw [h.2.logLen_eq, h.2.window_eq]
  · by_cases hoff : off = log.wOff
    · refine Or.inl ⟨hoff, ?_⟩
      have hlen := h.2.logLen_eq
      rw [hoff, logLen, if_pos le_rfl, Nat.sub_self] at hlen
      by_contra hne
      obtain ⟨e, rest, hcons⟩ := exists_cons_of_ne_nil hne
      obtain ⟨a, b, tail, rfl, -⟩ :=
        hentries e (mem_of_mem_drop (by rw [hcons]; exact mem_cons_self))
      simp [hcons] at hlen
    · obtain ⟨e, -, hcons, hlen⟩ := h.next hentries hoff
      exact Or.inr ⟨e, _, hcons, hlen⟩
  · intro len hpos hmax hin
    have hin' := (h.2.clockInterval_iff hpow (by omega)).mp hin
    obtain ⟨k, -, hholds, -⟩ := getNextEntry_holds hpow h.2
      (fun e he => hentries e (mem_of_mem_drop he)) hpos (by omega)
    refine ⟨(written.drop j).drop k, drop_suffix _ _, ?_⟩
    rw [hholds.logLen_eq, hholds.window_eq]

theorem History.Inv.reader_tracks (hinv : h.Inv size) (hi : i < h.log.readers.length)
    (hi' : i < h.seen.length) : ReaderTracks h.log h.written h.log.readers[i].rOff h.seen[i] :=
  hinv.readers_track i _ _ (List.getElem?_eq_getElem hi) (List.getElem?_eq_getElem hi')

theorem History.Inv.readsSuffix (hinv : h.Inv size)
    (hpow : ∃ k, size = 2 ^ k) (hsize : 2 * loggerEntryMaxLen ≤ size) :
    ∀ off ∈ h.log.head :: h.log.readers.map LoggerReader.rOff, ReadsSuffix h.log h.written off := by
  have hpow' : ∃ k, h.log.size = 2 ^ k := by rwa [hinv.size_eq]
  have hsize' : 2 * loggerEntryMaxLen ≤ h.log.size := by rwa [hinv.size_eq]
  intro off hoff
  rcases List.mem_cons.mp hoff with rfl | hoff
  · obtain ⟨j, hj⟩ := hinv.head_tracks
    exact hj.readsSuffix hpow' hsize' hinv.entries
  · obtain ⟨reader, hmem, rfl⟩ := List.mem_map.mp hoff
    obtain ⟨i, hi, rfl⟩ := getElem_of_mem hmem
    obtain ⟨j, hj, -⟩ := hinv.reader_tracks hi (by rwa [hinv.seen_length])
    exact hj.readsSuffix hpow' hsize' hinv.entries

theorem History.Inv.seen_sublist (hinv : h.Inv size) : ∀ seen ∈ h.seen, seen.Sublist h.written := by
  intro seen hseen
  obtain ⟨i, hi, rfl⟩ := getElem_of_mem hseen
  obtain ⟨j, -, hsub⟩ := hinv.reader_tracks (by rwa [← hinv.seen_length]) hi
  exact hsub.trans (take_sublist _ _)

/-- Ring integrity over every run: the head and every reader sit on the written entries,
and no reader is handed a torn, repeated or reordered entry. -/
theorem ring_integrity {size : ℕ} (hpow : ∃ k, size = 2 ^ k)
    (hsize : 2 * loggerEntryMaxLen ≤ size) (ops : List Op) :
    let h := History.run size ops
    (∀ off ∈ h.log.head :: h.log.readers.map LoggerReader.rOff, ReadsSuffix h.log h.written off) ∧
    h.seen.length = h.log.readers.length ∧ ∀ seen ∈ h.seen, seen.Sublist h.written := by
  intro h
  have hinv : h.Inv size := inv_run hpow hsize ops
  exact ⟨hinv.readsSuffix hpow hsize, hinv.seen_length, hinv.seen_sublist⟩

/-- The integrity theorem at the size of the main log, for a reader that is opened, a write
in two segments whose second one faults, and a write that is then read back. -/
theorem ring_integrity_log_main :
    let ops := [.openReader, .write (fun _ => 1) [⟨[10, 11], none, none⟩, ⟨[12], some [7], none⟩],
      .write (fun _ => 2) [⟨[13, 14, 15], none, none⟩], .read 0 4096 false]
    let h := History.run (64 * 1024) ops
    (∀ off ∈ h.log.head :: h.log.readers.map LoggerReader.rOff, ReadsSuffix h.log h.written off) ∧
    h.seen.length = h.log.readers.length ∧ ∀ seen ∈ h.seen, seen.Sublist h.written :=
  ring_integrity (show ∃ k, 64 * 1024 = 2 ^ k from ⟨16, rfl⟩) (by decide) _

end AndroidKernel.Logger
