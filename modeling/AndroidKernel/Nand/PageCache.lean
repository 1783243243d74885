import AndroidKernel.Nand.Basic

/-!
# The page cache

While the cache names a page, the buffer holds the contents of that page, over every sequence of
calls in which no page goes through the buffer without becoming the cached page, and in which the
address of a cached page that is written fits an `int`.
-/

namespace AndroidKernel.Nand

open Function List Nat State

variable {chip : Chip} {s s' : State} {chipnr realpage col p : ℕ}

/-- The contents of a page of the device. -/
def State.content (chip : Chip) (s : State) (realpage : ℕ) : Page :=
  s.flash (realpage / chip.pagesPerChip) (realpage % chip.pagesPerChip)

/-- The bytes of the device from the address `pos` on. -/
def State.bytes (chip : Chip) (s : State) (pos len : ℕ) : List UInt8 :=
  (List.range len).map fun i =>
    s.content chip ((pos + i) / chip.writesize) ((pos + i) % chip.writesize)

/-- The page that the cache names is in the buffer. -/
structure State.Coherent (chip : Chip) (s : State) : Prop where
  cached : ∀ p : ℕ, s.pagebuf = p → s.databuf = s.content chip p
  subpage : chip.nandSubpageRead = true → s.pagebuf < 0

theorem Chip.writesize_pos : 0 < chip.writesize := Nat.two_pow_pos _

section Read

variable {ops : ReadOps} {reads : ℕ → PageRead}

/-- The page was delivered. -/
def PageRead.IsDelivered (r : PageRead) : Prop := ∃ corrected, r = .delivered corrected

/-- What is asked of a page that goes through the buffer: it is delivered and becomes the cached
page or is it already, or nothing is cached and nothing becomes so. -/
def Passes (chip : Chip) (ops : ReadOps) (reads : ℕ → PageRead) (s : State) (p : ℕ) : Prop :=
  ((reads p).IsDelivered ∧ (ops.oob = false ∨ s.pagebuf = p)) ∨
    (s.pagebuf < 0 ∧ (ops.oob = true ∨ chip.nandSubpageRead = true))

/-- A step that leaves the pages alone keeps the cache when it changes neither the buffer nor what
is cached, when nothing is cached after it, or when it fills the buffer with the page that it names.
-/
theorem State.Coherent.of_flash (h : s.Coherent chip) (hflash : s'.flash = s.flash)
    (hcase : (s'.databuf = s.databuf ∧ s'.pagebuf = s.pagebuf) ∨ s'.pagebuf < 0 ∨
      ∃ p : ℕ, s'.pagebuf = p ∧ s'.databuf = s.content chip p ∧ chip.nandSubpageRead = false) :
    s'.Coherent chip := by
  have hcontent : ∀ p, s'.content chip p = s.content chip p := fun p => by
    rw [content, hflash, content]
  obtain ⟨hdata, hbuf⟩ | hneg | ⟨p, hbuf, hdata, hsub⟩ := hcase
  · refine ⟨fun q hq => ?_, fun hs => hbuf ▸ h.subpage hs⟩
    rw [hdata, hcontent]
    exact h.cached q (hbuf ▸ hq)
  · exact ⟨fun q hq => by omega, fun _ => hneg⟩
  · refine ⟨fun q hq => ?_, fun hs => by rw [hs] at hsub; cases hsub⟩
    obtain rfl : p = q := by omega
    rw [hdata, hcontent]

theorem fetch_aligned (s : State) (chipnr realpage col : ℕ) :
    fetch chip ops reads s chipnr realpage col chip.writesize =
      match reads realpage with
      | .delivered corrected => ({ s with eccCorrected := s.eccCorrected + corrected },
          .ok (slice (s.flash chipnr (realpage % chip.pagesPerChip)) col chip.writesize))
      | .uncorrectable data failed corrected =>
        ({ s with
          eccFailed := s.eccFailed + (failed + 1), eccCorrected := s.eccCorrected + corrected },
          .ok (slice data col chip.writesize))
      | .error _ errno _ => (s, .error (-(errno + 1 : ℕ))) := by
  cases hread : reads realpage <;> simp [fetch, hread, PageRead.outcome]
  omega

theorem fetch_unaligned (s : State) (chipnr realpage col : ℕ) {bytes : ℕ}
    (hbytes : bytes ≠ chip.writesize) :
    fetch chip ops reads s chipnr realpage col bytes =
      let pagebuf := if chip.nandSubpageRead = false ∧ ops.oob = false then (realpage : ℤ)
        else s.pagebuf
      match reads realpage with
      | .delivered corrected =>
        let data := s.flash chipnr (realpage % chip.pagesPerChip)
        (⟨pagebuf, data, s.flash, s.eccFailed, s.eccCorrected + corrected⟩,
          .ok (slice data col bytes))
      | .uncorrectable data failed corrected =>
        (⟨pagebuf, data, s.flash, s.eccFailed + (failed + 1), s.eccCorrected + corrected⟩,
          .ok (slice data col bytes))
      | .error data errno _ => ({ s with databuf := data }, .error (-(errno + 1 : ℕ))) := by
  cases hread : reads realpage <;> simp [fetch, hread, PageRead.outcome, hbytes]
  · split_ifs <;> rfl
  · split_ifs <;> rfl
  · omega

/-- What a page read leaves behind. -/
structure Left (chip : Chip) (ops : ReadOps) (reads : ℕ → PageRead) (s : State) (realpage : ℕ)
    (s' : State) : Prop where
  coherent : s'.Coherent chip
  flash : s'.flash = s.flash
  failed_le : s.eccFailed ≤ s'.eccFailed
  passes : ∀ p, Passes chip ops reads s p → Passes chip ops reads s' p
  pagebuf : s'.pagebuf = s.pagebuf ∨ s'.pagebuf = realpage

theorem fetch_spec (h : s.Coherent chip) {bytes : ℕ} (hchip : chipnr = realpage / chip.pagesPerChip)
    (hpass : bytes ≠ chip.writesize → Passes chip ops reads s realpage) :
    ∃ s' r, fetch chip ops reads s chipnr realpage col bytes = (s', r) ∧
      Left chip ops reads s realpage s' ∧
      ((∃ ret, r = .error ret ∧ ret < 0 ∧ ret ≠ euclean) ∨
        ∃ data, r = .ok data ∧ (s'.eccFailed = s.eccFailed → (reads realpage).IsDelivered ∧
          data = slice (s.content chip realpage) col bytes)) := by
  subst hchip
  by_cases hbytes : bytes = chip.writesize
  · subst hbytes
    rw [fetch_aligned]
    cases hread : reads realpage with
    | delivered corrected =>
      exact ⟨_, _, rfl, ⟨h.of_flash rfl (.inl ⟨rfl, rfl⟩), rfl, le_rfl, fun _ hp => hp, .inl rfl⟩,
        .inr ⟨_, rfl, fun _ => ⟨⟨corrected, rfl⟩, rfl⟩⟩⟩
    | uncorrectable data failed corrected =>
      refine ⟨_, _, rfl, ⟨h.of_flash rfl (.inl ⟨rfl, rfl⟩), rfl, Nat.le_add_right ..,
        fun _ hp => hp, .inl rfl⟩, .inr ⟨_, rfl, fun hsame => ?_⟩⟩
      simp at hsame
    | error data errno hne =>
      exact ⟨_, _, rfl, ⟨h, rfl, le_rfl, fun _ hp => hp, .inl rfl⟩,
        .inl ⟨_, rfl, by omega, by rw [euclean]; omega⟩⟩
  · rw [fetch_unaligned s _ _ _ hbytes]
    have hkeep : ∀ (s' : State), s'.pagebuf = (if chip.nandSubpageRead = false ∧ ops.oob = false
        then (realpage : ℤ) else s.pagebuf) →
        ∀ p, Passes chip ops reads s p → Passes chip ops reads s' p := by
      intro s' hs' p hp
      unfold Passes at hp ⊢
      split_ifs at hs' with hboth
      · simpa [hboth.1, hboth.2] using hp
      · rwa [hs']
    obtain ⟨⟨corrected, hread⟩, hcached⟩ | ⟨hnone, hflags⟩ := hpass hbytes
    · simp only [hread]
      refine ⟨_, _, rfl, ⟨h.of_flash rfl ?_, rfl, le_rfl, hkeep _ rfl, ?_⟩,
        .inr ⟨_, rfl, fun _ => ⟨⟨corrected, rfl⟩, rfl⟩⟩⟩
      swap
      · simp only
        split_ifs
        · exact .inr rfl
        · exact .inl rfl
      cases hsub : chip.nandSubpageRead with
      | true => exact .inr (.inl (by simpa using h.subpage hsub))
      | false =>
        refine .inr (.inr ⟨realpage, ?_, rfl, rfl⟩)
        cases hoob : ops.oob with
        | true => simpa [hoob] using hcached
        | false => simp
    · have hflags' : ¬ (chip.nandSubpageRead = false ∧ ops.oob = false) := by
        rintro ⟨h1, h2⟩
        simp [h1, h2] at hflags
      simp only [if_neg hflags'] at hkeep ⊢
      cases hread : reads realpage with
      | delivered corrected =>
        exact ⟨_, _, rfl, ⟨h.of_flash rfl (.inr (.inl hnone)), rfl, le_rfl, hkeep _ rfl, .inl rfl⟩,
          .inr ⟨_, rfl, fun _ => ⟨⟨corrected, rfl⟩, rfl⟩⟩⟩
      | uncorrectable data failed corrected =>
        refine ⟨_, _, rfl, ⟨h.of_flash rfl (.inr (.inl hnone)), rfl, Nat.le_add_right ..,
          hkeep _ rfl, .inl rfl⟩, .inr ⟨_, rfl, fun hsame => ?_⟩⟩
        simp at hsame
      | error data errno hne =>
        exact ⟨_, _, rfl, ⟨h.of_flash rfl (.inr (.inl hnone)), rfl, le_rfl, hkeep _ rfl, .inl rfl⟩,
          .inl ⟨_, rfl, by omega, by rw [euclean]; omega⟩⟩

/-- The page that the loop is at. When it comes without a failure, it is as the chip holds it. -/
theorem readPage_spec (h : s.Coherent chip) (col bytes : ℕ)
    (hchip : chipnr = realpage / chip.pagesPerChip)
    (hpass : bytes ≠ chip.writesize → Passes chip ops reads s realpage) :
    ∃ s' r, readPage chip ops reads s chipnr realpage col bytes = (s', r) ∧
      Left chip ops reads s realpage s' ∧
      ((∃ ret, r = .error ret ∧ ret < 0 ∧ ret ≠ euclean) ∨
        ∃ data, r = .ok data ∧ (s'.eccFailed = s.eccFailed →
          ((reads realpage).IsDelivered ∨ s.pagebuf = realpage) ∧
          data = slice (s.content chip realpage) col bytes)) := by
  unfold readPage
  split_ifs with hmiss
  · obtain ⟨s', r, hrun, hleft, hresult⟩ := fetch_spec h hchip hpass
    refine ⟨s', r, hrun, hleft, hresult.imp_right ?_⟩
    rintro ⟨data, hdata, hsame⟩
    exact ⟨data, hdata, fun hs => ⟨.inl (hsame hs).1, (hsame hs).2⟩⟩
  · have hhit : s.pagebuf = realpage := by
      by_contra hne
      exact hmiss (.inl fun heq => hne heq.symm)
    refine ⟨s, _, rfl, ⟨h, rfl, le_rfl, fun _ hp => hp, .inl rfl⟩,
      .inr ⟨_, rfl, fun _ => ⟨.inr hhit, ?_⟩⟩⟩
    rw [h.cached realpage hhit]

theorem State.bytes_add (s : State) (pos m n : ℕ) :
    s.bytes chip pos (m + n) = s.bytes chip pos m ++ s.bytes chip (pos + m) n := by
  simp [State.bytes, range_add, comp_def, add_assoc]

theorem State.bytes_of_flash (hflash : s'.flash = s.flash) (pos len : ℕ) :
    s'.bytes chip pos len = s.bytes chip pos len := by
  simp only [State.bytes, content, hflash]

theorem slice_content (s : State) (realpage col bytes : ℕ) (hle : col + bytes ≤ chip.writesize) :
    slice (s.content chip realpage) col bytes =
      s.bytes chip (realpage * chip.writesize + col) bytes := by
  refine map_congr_left fun i hi => ?_
  rw [mem_range] at hi
  have hlt : col + i < chip.writesize := by omega
  have hsplit : realpage * chip.writesize + col + i = col + i + realpage * chip.writesize := by
    omega
  rw [hsplit, add_mul_div_right _ _ chip.writesize_pos, div_eq_of_lt hlt, Nat.zero_add,
    add_mul_mod_self_right, mod_eq_of_lt hlt]

theorem next_chip (chip : Chip) (realpage : ℕ) :
    (if (realpage + 1) % chip.pagesPerChip = 0 then realpage / chip.pagesPerChip + 1
      else realpage / chip.pagesPerChip) = (realpage + 1) / chip.pagesPerChip := by
  rw [Nat.succ_div]
  simp only [dvd_iff_mod_eq_zero]
  split_ifs <;> rfl

/-- A page from which the range from `pos` to `stop` takes a part only. -/
def Partly (chip : Chip) (pos stop p : ℕ) : Prop :=
  ¬ (pos ≤ p * chip.writesize ∧ p * chip.writesize + chip.writesize ≤ stop)

/-- The page is among those that a call for the range from `pos` to `stop` looks at. -/
def Touched (chip : Chip) (pos stop p : ℕ) : Prop :=
  p = pos / chip.writesize ∨ pos / chip.writesize < p ∧ p * chip.writesize < stop

theorem div_writesize (hcol : col < chip.writesize) :
    (realpage * chip.writesize + col) / chip.writesize = realpage := by
  rw [add_comm, add_mul_div_right _ _ chip.writesize_pos, div_eq_of_lt hcol, zero_add]

theorem mul_writesize_le (chip : Chip) {q : ℕ} (hlt : p < q) :
    p * chip.writesize + chip.writesize ≤ q * chip.writesize := by
  have := mul_le_mul_right chip.writesize (succ_le_of_lt hlt)
  rwa [succ_mul] at this

theorem touched_next {stop : ℕ} (hcol : col < chip.writesize)
    (hstop : realpage * chip.writesize + chip.writesize < stop) :
    Touched chip ((realpage + 1) * chip.writesize) stop p ↔
      realpage < p ∧ Touched chip (realpage * chip.writesize + col) stop p := by
  rw [Touched, Touched, Nat.mul_div_cancel _ chip.writesize_pos, div_writesize hcol]
  constructor
  · rintro (rfl | ⟨hlt, hp⟩)
    · exact ⟨by omega, .inr ⟨by omega, by rwa [succ_mul]⟩⟩
    · exact ⟨by omega, .inr ⟨by omega, hp⟩⟩
  · rintro ⟨hlt, rfl | ⟨-, hp⟩⟩
    · omega
    · obtain rfl | hgt := (succ_le_of_lt hlt).eq_or_lt
      · exact .inl rfl
      · exact .inr ⟨hgt, hp⟩

theorem readLoop_spec (ops : ReadOps) (reads : ℕ → PageRead) (fuel oobreadlen : ℕ)
    (buf : List UInt8) (h : s.Coherent chip) {chipnr realpage col readlen : ℕ}
    (hchip : chipnr = realpage / chip.pagesPerChip) (hcol : col < chip.writesize)
    (hfuel : readlen < fuel)
    (hpass : ∀ p, Touched chip (realpage * chip.writesize + col)
        (realpage * chip.writesize + col + readlen) p →
      Partly chip (realpage * chip.writesize + col)
        (realpage * chip.writesize + col + readlen) p → Passes chip ops reads s p) :
    ∃ s' ret readlen' oobreadlen' buf',
      readLoop chip ops reads fuel s chipnr realpage col readlen oobreadlen buf =
        some (s', ret, readlen', oobreadlen', buf') ∧ s'.Coherent chip ∧ s'.flash = s.flash ∧
      s.eccFailed ≤ s'.eccFailed ∧ ret ≠ euclean ∧
      (ret = 0 → s'.eccFailed = s.eccFailed → readlen' = 0 ∧
        buf' = buf ++ s.bytes chip (realpage * chip.writesize + col) readlen ∧
        ∀ p, Touched chip (realpage * chip.writesize + col)
          (realpage * chip.writesize + col + readlen) p →
          (reads p).IsDelivered ∨ s.pagebuf = p) := by
  induction fuel generalizing s chipnr realpage col readlen oobreadlen buf with
  | zero => omega
  | succ fuel ih =>
    have hdiv : (realpage * chip.writesize + col) / chip.writesize = realpage := div_writesize hcol
    obtain ⟨s₁, r, hrun, hleft, hresult⟩ := readPage_spec h col
      (min (chip.writesize - col) readlen) hchip fun hpart =>
        hpass realpage (.inl hdiv.symm) fun hwhole => hpart (by omega)
    simp only [readLoop, hrun]
    obtain ⟨ret, rfl, hret, hne⟩ | ⟨data, rfl, hdata⟩ := hresult
    · exact ⟨_, _, _, _, _, rfl, hleft.coherent, hleft.flash, hleft.failed_le, hne, by omega⟩
    by_cases hdone : readlen - min (chip.writesize - col) readlen = 0
    · simp only [if_pos hdone]
      refine ⟨_, _, _, _, _, rfl, hleft.coherent, hleft.flash, hleft.failed_le, by decide,
        fun _ hsame => ?_⟩
      obtain ⟨hsource, hslice⟩ := hdata hsame
      have hall : min (chip.writesize - col) readlen = readlen := by omega
      refine ⟨hdone, ?_, ?_⟩
      · rw [hslice, slice_content _ _ _ _ (by omega), hall]
      · rintro p (rfl | ⟨hlt, hp⟩)
        · rwa [hdiv]
        · rw [hdiv] at hlt
          have := mul_writesize_le chip hlt
          omega
    · have hfirst : min (chip.writesize - col) readlen = chip.writesize - col := by omega
      rw [hfirst] at hdata hdone hrun
      simp only [hfirst, if_neg hdone, hchip, next_chip]
      have hpos : realpage * chip.writesize + col + (chip.writesize - col) =
          (realpage + 1) * chip.writesize + 0 := by
        rw [succ_mul]
        omega
      have hstop : (realpage + 1) * chip.writesize + 0 + (readlen - (chip.writesize - col)) =
          realpage * chip.writesize + col + readlen := by omega
      have hnext : ∀ p, Touched chip ((realpage + 1) * chip.writesize + 0)
          (realpage * chip.writesize + col + readlen) p ↔ realpage < p ∧
          Touched chip (realpage * chip.writesize + col)
            (realpage * chip.writesize + col + readlen) p := fun p => touched_next hcol (by omega)
      obtain ⟨s', ret, readlen', oobreadlen', buf', hrest, hgood, hflash, hfailed, hne, hsuccess⟩ :=
        @ih s₁ (if ops.oob then oobreadlen - min oobreadlen ops.maxOobsize else oobreadlen)
          (buf ++ data) hleft.coherent _ (realpage + 1) 0 (readlen - (chip.writesize - col)) rfl
          chip.writesize_pos (by omega) (by
            intro p htouched hpartly
            rw [hstop, hnext] at htouched
            rw [hstop] at hpartly
            have := mul_writesize_le chip htouched.1
            exact hleft.passes p (hpass p htouched.2 fun hwhole => hpartly ⟨by omega, hwhole.2⟩))
      refine ⟨s', ret, readlen', oobreadlen', buf', hrest, hgood, hflash.trans hleft.flash,
        hleft.failed_le.trans hfailed, hne, fun hret hsame => ?_⟩
      have hle := hleft.failed_le
      obtain ⟨hsource, hslice⟩ := hdata (by omega)
      obtain ⟨hzero, hbuf, hall⟩ := hsuccess hret (by omega)
      refine ⟨hzero, ?_, fun p hp => ?_⟩
      · have hsplit : readlen = chip.writesize - col + (readlen - (chip.writesize - col)) := by
          omega
        rw [hbuf, hslice, slice_content _ _ _ _ (by omega), append_assoc,
          bytes_of_flash hleft.flash, ← hpos, ← bytes_add, ← hsplit]
      · by_cases hlt : realpage < p
        · rw [hstop] at hall
          obtain hdelivered | hcached := hall p ((hnext p).mpr ⟨hlt, hp⟩)
          · exact .inl hdelivered
          · obtain hold | hnew := hleft.pagebuf
            · exact .inr (hold ▸ hcached)
            · omega
        · obtain rfl | ⟨hlt', -⟩ := hp
          · rwa [hdiv]
          · omega

/-- What is asked of a read: every page of which it wants a part passes through the buffer. -/
def ReadOps.Meets (chip : Chip) (s : State) (ops : ReadOps) (reads : ℕ → PageRead) : Prop :=
  ∀ p, Touched chip ops.from (ops.from + ops.len) p →
    Partly chip ops.from (ops.from + ops.len) p → Passes chip ops reads s p

/-- The bytes that a read returns with success are those of the device, and it took each page from
the cache or had it delivered. -/
def ReadOps.Honest (chip : Chip) (s : State) (ops : ReadOps) (reads : ℕ → PageRead) (r : Return) :
    Prop :=
  r.ret = 0 ∨ r.ret = euclean → r.retlen = ops.len ∧ r.datbuf = s.bytes chip ops.from ops.len ∧
    ∀ p, Touched chip ops.from (ops.from + ops.len) p → (reads p).IsDelivered ∨ s.pagebuf = p

theorem chipnr_eq (chip : Chip) (addr : ℕ) :
    addr >>> chip.chipShift = addr >>> chip.pageShift / chip.pagesPerChip := by
  rw [shiftRight_eq_div_pow, shiftRight_eq_div_pow, Chip.pagesPerChip,
    Nat.div_div_eq_div_mul, ← Nat.pow_add, Nat.add_sub_cancel' (chip.page_le.trans chip.erase_le)]

/-- `nand_do_read_ops` keeps the cache and is honest. -/
theorem State.Coherent.nandDoReadOps (h : s.Coherent chip) (hmeets : ops.Meets chip s reads) :
    ∃ s' r, nandDoReadOps chip ops reads s = some (s', r) ∧ s'.Coherent chip ∧
      s'.flash = s.flash ∧ ops.Honest chip s reads r := by
  have hpos : ops.from >>> chip.pageShift * chip.writesize + ops.from % chip.writesize =
      ops.from := by
    rw [shiftRight_eq_div_pow]
    exact div_add_mod' _ _
  have hchip := chipnr_eq chip ops.from
  obtain ⟨s', ret, readlen, oobreadlen, buf, hrun, hgood, hflash, hfailed, hne, hsuccess⟩ :=
    readLoop_spec ops reads (ops.len + 1) ops.ooblen [] h hchip
      (mod_lt _ chip.writesize_pos) (lt_succ_self ops.len) (by rw [hpos]; exact hmeets)
  rw [hpos] at hsuccess
  simp only [Nand.nandDoReadOps, hrun]
  refine ⟨_, _, rfl, hgood, hflash, fun hret => ?_⟩
  simp only at hret
  have hzero : ret = 0 := by
    by_contra hnot
    rw [if_pos hnot] at hret
    exact hret.elim hnot hne
  have hsame : s'.eccFailed = s.eccFailed := by
    by_contra hnot
    rw [if_neg (by simp [hzero]), if_pos (by omega)] at hret
    exact absurd hret (by decide)
  obtain ⟨hlen, hbuf, hall⟩ := hsuccess hzero hsame
  exact ⟨by simp [hlen], by simpa using hbuf, hall⟩

end Read

section Write

variable {ops : WriteOps}

theorem State.content_setPage (s : State) (realpage : ℕ) (data : Page) (hne : p ≠ realpage) :
    (s.setPage (realpage / chip.pagesPerChip) (realpage % chip.pagesPerChip) data).content chip p =
      s.content chip p := by
  simp only [content, State.setPage]
  by_cases hchip : p / chip.pagesPerChip = realpage / chip.pagesPerChip
  · have hpage : p % chip.pagesPerChip ≠ realpage % chip.pagesPerChip := by
      intro heq
      exact hne (by rw [← div_add_mod p chip.pagesPerChip, hchip, heq, div_add_mod])
    rw [hchip, update_self, update_of_ne hpage]
  · rw [update_of_ne hchip]

theorem State.Coherent.setPage (h : s.Coherent chip) (realpage : ℕ) (data : Page)
    (hne : s.pagebuf ≠ realpage) :
    (s.setPage (realpage / chip.pagesPerChip) (realpage % chip.pagesPerChip)
      data).Coherent chip := by
  refine ⟨fun p hp => ?_, h.subpage⟩
  have hother : p ≠ realpage := fun heq => hne (heq ▸ hp)
  rw [content_setPage _ _ _ hother]
  exact h.cached p hp

theorem State.Coherent.uncached (s : State) (databuf : Page) :
    State.Coherent chip { s with pagebuf := -1, databuf := databuf } :=
  ⟨fun p hp => by simp only at hp; omega, fun _ => by simp⟩

/-- What is put together, and that the page to be written is not cached then. -/
theorem stage_spec (h : s.Coherent chip) (buf : List UInt8) {column writelen : ℕ}
    (hcol : column < chip.writesize) (hwritelen : chip.subpagesize ∣ writelen)
    (hcached : s.pagebuf = realpage → column ≠ 0) :
    ∃ s' wbuf, stage chip s column buf writelen =
        (s', min (chip.writesize - column) writelen, wbuf) ∧ s'.Coherent chip ∧
      s'.pagebuf ≠ realpage ∧ (s'.pagebuf = s.pagebuf ∨ s'.pagebuf = -1) := by
  unfold stage
  split_ifs with hpart
  · exact ⟨_, _, rfl, .uncached _ _, by simp only; omega, .inr rfl⟩
  · -- A length one short of a page is no multiple of the subpage size.
    have hwhole : chip.writesize ≤ writelen := by
      by_contra hshort
      have hpow : chip.subpagesize ∣ chip.writesize := pow_dvd_pow 2 chip.subpage_le
      have hone : chip.subpagesize ∣ 1 := by
        have := dvd_sub hpow hwritelen
        rwa [show chip.writesize - writelen = 1 by omega] at this
      have htwo : 2 ^ 1 ≤ chip.subpagesize := Nat.pow_le_pow_right (by decide) chip.subpage_pos
      have := le_of_dvd one_pos hone
      omega
    refine ⟨s, fun j => buf.getD j 0, ?_, h, fun heq => hpart (.inl (hcached heq)), .inl rfl⟩
    rw [show min (chip.writesize - column) writelen = chip.writesize by omega]

/-- The pages of a range from the loop's place on, none of them cached but perhaps the first one
when a part of it is written. -/
theorem writeLoop_spec (writes : ℕ → PageWrite) (fuel : ℕ) (buf : List UInt8) (h : s.Coherent chip)
    {chipnr realpage column writelen : ℕ} (hchip : chipnr = realpage / chip.pagesPerChip)
    (hcol : column < chip.writesize) (hfuel : writelen < fuel) (hlt : writelen < 2 ^ 32)
    (hcolumn : chip.subpagesize ∣ column) (hwritelen : chip.subpagesize ∣ writelen)
    (hcached : ∀ p, Touched chip (realpage * chip.writesize + column)
      (realpage * chip.writesize + column + writelen) p → s.pagebuf = p →
        p = realpage ∧ column ≠ 0) :
    ∃ s' ret writelen', writeLoop chip writes fuel s chipnr realpage column buf writelen =
      some (s', ret, writelen') ∧ s'.Coherent chip := by
  induction fuel generalizing s buf chipnr realpage column writelen with
  | zero => omega
  | succ fuel ih =>
    obtain ⟨s₁, wbuf, hstage, hgood, hne, hbuf⟩ := stage_spec h buf hcol hwritelen
      fun heq => (hcached realpage (.inl (div_writesize hcol).symm) heq).2
    subst hchip
    simp only [writeLoop, hstage, next_chip]
    have hwritten := hgood.setPage realpage ((writes realpage).outcome chip
      (s₁.flash (realpage / chip.pagesPerChip) (realpage % chip.pagesPerChip)) wbuf).2 hne
    have hleft : (writelen + 2 ^ 32 - min (chip.writesize - column) writelen) % 2 ^ 32 =
        writelen - min (chip.writesize - column) writelen := by omega
    rw [hleft]
    split_ifs with hret hdone
    iterate 2
      · exact ⟨_, _, _, rfl, hwritten⟩
    · have hfirst : min (chip.writesize - column) writelen = chip.writesize - column := by omega
      rw [hfirst] at hdone ⊢
      have hstop : (realpage + 1) * chip.writesize + 0 + (writelen - (chip.writesize - column)) =
          realpage * chip.writesize + column + writelen := by
        rw [succ_mul]
        omega
      refine ih _ hwritten rfl chip.writesize_pos (by omega) (by omega) (Nat.dvd_zero _)
        (dvd_sub hwritelen (dvd_sub (pow_dvd_pow 2 chip.subpage_le) hcolumn)) ?_
      intro p htouched heq
      rw [hstop, add_zero, touched_next hcol (by omega)] at htouched
      obtain hold | hnone := hbuf
      · have := (hcached p htouched.2 (hold ▸ heq)).1
        omega
      · have : s₁.pagebuf = p := heq
        omega

/-- What is asked of a write: the address of the cached page fits an `int`, or that page is not
written. -/
def WriteOps.Meets (chip : Chip) (s : State) (ops : WriteOps) : Prop :=
  s.pagebuf * 2 ^ chip.pageShift < 2 ^ 31 ∨
    ∀ p, Touched chip ops.toPos (ops.toPos + ops.datbuf.length) p → s.pagebuf ≠ p

theorem State.Coherent.invalidate (h : s.Coherent chip) (ops : WriteOps) :
    (invalidate chip ops s).Coherent chip := by
  unfold Nand.invalidate
  split_ifs
  · exact .uncached s s.databuf
  · exact h

/-- After the check no page of the range is cached but perhaps the first one, of which only a part
is written. -/
theorem invalidate_cached (hmeets : ops.Meets chip s) (hlen : ops.datbuf.length ≠ 0)
    (htouched : Touched chip ops.toPos (ops.toPos + ops.datbuf.length) p)
    (heq : (invalidate chip ops s).pagebuf = p) :
    p = ops.toPos >>> chip.pageShift ∧ ops.toPos % chip.writesize ≠ 0 := by
  unfold invalidate at heq
  split_ifs at heq with hin
  · simp only at heq
    omega
  · obtain hfits | hnot := hmeets
    · have hbound : (p * chip.writesize : ℕ) < 2 ^ 31 := by
        have : ((p * chip.writesize : ℕ) : ℤ) < 2 ^ 31 := by
          rw [heq] at hfits
          simpa [Chip.writesize] using hfits
        exact_mod_cast this
      have haddr : pagebufAddr chip s = (p * chip.writesize : ℕ) := by
        have hmul : s.pagebuf * 2 ^ chip.pageShift = (p * chip.writesize : ℕ) := by
          simp [heq, Chip.writesize]
        rw [pagebufAddr, hmul, Int.bmod_eq_of_le (by omega) (by omega)]
      rw [haddr] at hin
      have hdiv := div_add_mod' ops.toPos chip.writesize
      rw [shiftRight_eq_div_pow]
      change p = ops.toPos / chip.writesize ∧ _
      obtain rfl | ⟨hlt, hp⟩ := htouched
      · exact ⟨rfl, fun hzero => hin ⟨by omega, by omega⟩⟩
      · have := mul_writesize_le chip hlt
        have := mod_lt ops.toPos chip.writesize_pos
        exact absurd ⟨by omega, by omega⟩ hin
    · exact absurd heq (hnot p htouched)

/-- `nand_do_write_ops` keeps the cache. -/
theorem State.Coherent.nandDoWriteOps (h : s.Coherent chip) (hmeets : ops.Meets chip s)
    (writes : ℕ → PageWrite) (wp : Bool) :
    ∃ s' r, nandDoWriteOps chip ops writes wp s = some (s', r) ∧ s'.Coherent chip := by
  unfold Nand.nandDoWriteOps
  simp only
  by_cases hzero : ops.datbuf.length = 0
  · exact ⟨_, _, if_pos hzero, h⟩
  rw [if_neg hzero]
  split_ifs with halign
  iterate 3
    · exact ⟨_, _, rfl, h⟩
  · exact ⟨_, _, rfl, h.invalidate ops⟩
  all_goals
    rw [not_or, not_not, not_not] at halign
    have hpos : ops.toPos >>> chip.pageShift * chip.writesize + ops.toPos % chip.writesize =
        ops.toPos := by
      rw [shiftRight_eq_div_pow]
      exact div_add_mod' _ _
    have hcolumn : chip.subpagesize ∣ ops.toPos % chip.writesize :=
      (dvd_mod_iff (pow_dvd_pow 2 chip.subpage_le)).mpr (dvd_of_mod_eq_zero halign.1)
    obtain ⟨s', ret, writelen, hrun, hgood⟩ := writeLoop_spec writes (ops.datbuf.length + 1)
      ops.datbuf (h.invalidate ops) (chipnr_eq chip ops.toPos)
      (mod_lt _ chip.writesize_pos) (lt_succ_self _) ops.len_lt hcolumn
      (dvd_of_mod_eq_zero halign.2)
      fun p htouched heq => invalidate_cached hmeets hzero (hpos ▸ htouched) heq
    exact ⟨_, _, by rw [hrun]; rfl, hgood⟩

end Write

section Erase

theorem State.content_setBlock (s : State) (page : ℕ) (data : ℕ → Page)
    (hout : ¬ (page ≤ p ∧ p < page + chip.pagesPerBlock)) :
    (s.setBlock chip (page / chip.pagesPerChip) (page % chip.pagesPerChip) data).content chip p =
      s.content chip p := by
  simp only [content, State.setBlock]
  by_cases hchip : p / chip.pagesPerChip = page / chip.pagesPerChip
  · have hp := div_add_mod p chip.pagesPerChip
    have hpage := div_add_mod page chip.pagesPerChip
    rw [hchip] at hp ⊢
    rw [update_self, if_neg (by omega)]
  · rw [update_of_ne hchip]

theorem State.Coherent.setBlock (h : s.Coherent chip) (page : ℕ) (data : ℕ → Page) :
    ((if page ≤ s.pagebuf ∧ s.pagebuf < page + chip.pagesPerBlock then { s with pagebuf := -1 }
      else s : State).setBlock chip (page / chip.pagesPerChip) (page % chip.pagesPerChip)
        data).Coherent chip := by
  split_ifs with hin
  · exact ⟨fun p hp => by simp only [State.setBlock] at hp; omega,
      fun _ => by simp [State.setBlock]⟩
  · refine ⟨fun p hp => ?_, h.subpage⟩
    have hp : s.pagebuf = p := hp
    rw [content_setBlock _ _ _ (by omega)]
    exact h.cached p hp

theorem next_block_chip (chip : Chip) {page : ℕ} (hpage : chip.pagesPerBlock ∣ page) :
    (if (page + chip.pagesPerBlock) % chip.pagesPerChip = 0 then page / chip.pagesPerChip + 1
      else page / chip.pagesPerChip) = (page + chip.pagesPerBlock) / chip.pagesPerChip := by
  obtain ⟨k, rfl⟩ := hpage
  have hpos : 0 < chip.pagesPerBlock := Nat.two_pow_pos _
  have hle := chip.page_le
  have hle' := chip.erase_le
  have hsplit : chip.pagesPerChip =
      chip.pagesPerBlock * 2 ^ (chip.chipShift - chip.physEraseShift) := by
    rw [Chip.pagesPerChip, Chip.pagesPerBlock, ← pow_add]
    congr 1
    omega
  rw [hsplit, ← mul_succ, Nat.mul_div_mul_left _ _ hpos, Nat.mul_div_mul_left _ _ hpos,
    mul_mod_mul_left, Nat.succ_div]
  simp only [mul_eq_zero, hpos.ne', false_or, dvd_iff_mod_eq_zero]
  split_ifs <;> rfl

theorem eraseLoop_spec (erases : ℕ → BlockErase) (fuel : ℕ) (h : s.Coherent chip)
    {page len : ℕ} (hchip : len ≠ 0 → chipnr = page / chip.pagesPerChip)
    (hpage : chip.pagesPerBlock ∣ page) (hfuel : len < fuel) :
    ∃ s' ret, eraseLoop chip erases fuel s chipnr page len = some (s', ret) ∧ s'.Coherent chip := by
  induction fuel generalizing s chipnr page len with
  | zero => omega
  | succ fuel ih =>
    unfold eraseLoop
    split_ifs with hzero
    · exact ⟨_, _, rfl, h⟩
    · rw [hchip hzero]
      simp only
      cases erases page with
      | bad => exact ⟨_, _, rfl, h⟩
      | failed data => exact ⟨_, _, rfl, h.setBlock page data⟩
      | done =>
        have hblock : 0 < 2 ^ chip.physEraseShift := Nat.two_pow_pos _
        refine ih (h.setBlock page _) (fun hlen => ?_) (Nat.dvd_add hpage (Nat.dvd_refl _))
          (by omega)
        rw [← next_block_chip chip hpage]
        simp [hlen]

/-- `nand_erase_nand` keeps the cache. -/
theorem State.Coherent.nandEraseNand (h : s.Coherent chip) (erases : ℕ → BlockErase) (wp : Bool)
    (addr len : ℕ) :
    ∃ s' r, nandEraseNand chip erases wp addr len s = some (s', r) ∧ s'.Coherent chip := by
  unfold Nand.nandEraseNand
  split_ifs with hbad hwp
  · exact ⟨_, _, rfl, h⟩
  · exact ⟨_, _, rfl, h⟩
  · have hpage : chip.pagesPerBlock ∣ addr >>> chip.pageShift := by
      have hdvd : 2 ^ chip.physEraseShift ∣ addr := dvd_of_mod_eq_zero (by omega)
      have hle := chip.page_le
      have hsplit : 2 ^ chip.physEraseShift = 2 ^ chip.pageShift * chip.pagesPerBlock := by
        rw [Chip.pagesPerBlock, ← Nat.pow_add, Nat.add_sub_cancel' hle]
      rw [shiftRight_eq_div_pow]
      obtain ⟨k, rfl⟩ := hdvd
      rw [hsplit, Nat.mul_assoc, Nat.mul_div_cancel_left _ (Nat.two_pow_pos _)]
      exact dvd_mul_right _ _
    obtain ⟨s', ret, hrun, hgood⟩ := eraseLoop_spec erases (len + 1) h
      (fun _ => chipnr_eq chip addr) hpage (lt_succ_self len)
    exact ⟨_, _, by rw [hrun]; rfl, hgood⟩

end Erase

end AndroidKernel.Nand
