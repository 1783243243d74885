import AndroidKernel.NameVal.Records

/-!
# Runs of the attribute store

The records denote a finite map. From an empty buffer, every sequence of calls acts on that map as
it should, as long as no record is stored that fills the buffer to its last byte. On a buffer with
any contents, `nval_del` writes to the buffer only; `nval_set` passes the length of the whole record
to `yaffs_strncpy`, which starts four bytes into the record, so it clears four bytes behind it.
-/

namespace AndroidKernel.NameVal

open Bytes Function List Nat Option

variable {xbSize bsize : ℕ} {mem : Mem} {rs pre post : List Record} {r : Record} {name : Name}
  {v : List UInt8} {m : Name → Option (List UInt8)}

/-- The map that the records stand for. -/
def toMap (rs : List Record) (name : Name) : Option (List UInt8) := rs.lookup name

/-- What `nval_get` returns. -/
def getResult (bsize : ℕ) : Option (List UInt8) → ℤ × List UInt8
  | none => (-enodata, [])
  | some v => if v.length ≤ bsize then (v.length, v) else (-erange, [])

/-- The buffer denotes the map: its records do, and `nval_get` returns the values. -/
structure Denotes (xbSize : ℕ) (mem : Mem) (m : Name → Option (List UInt8)) : Prop where
  records : ∃ rs, Stored xbSize mem rs ∧ m = toMap rs
  get (name : Name) (bsize : ℕ) : nvalGet xbSize name bsize mem = some (getResult bsize (m name))

section Maps

theorem toMap_eq_none : toMap rs name = none ↔ name ∉ rs.map Prod.fst := by
  rw [toMap, lookup_eq_none_iff, List.mem_map]
  constructor
  · rintro h ⟨r, hr, rfl⟩
    simpa using h r hr
  · intro h r hr
    rw [bne_iff_ne]
    exact fun heq => h ⟨r, hr, heq.symm⟩

theorem toMap_of_notMem_append (h : name ∉ pre.map Prod.fst) :
    toMap (pre ++ (name, v) :: post) name = some v := by
  rw [toMap, lookup_append, ← toMap, toMap_eq_none.mpr h, none_or, lookup_cons_self]

theorem toMap_remove (hpre : name ∉ pre.map Prod.fst) (hpost : name ∉ post.map Prod.fst) :
    toMap (pre ++ post) = update (toMap (pre ++ (name, v) :: post)) name none := by
  funext x
  by_cases hx : x = name
  · subst hx
    rw [update_self, toMap_eq_none, map_append, mem_append]
    exact not_or.mpr ⟨hpre, hpost⟩
  · rw [update_of_ne hx]
    simp only [toMap, lookup_append, lookup_cons, beq_eq_false_iff_ne.mpr hx]

theorem toMap_add (h : name ∉ rs.map Prod.fst) :
    toMap (rs ++ [(name, v)]) = update (toMap rs) name (some v) := by
  funext x
  by_cases hx : x = name
  · subst hx
    rw [update_self, toMap_of_notMem_append h]
  · rw [update_of_ne hx]
    simp [toMap, lookup_append, lookup_cons, beq_eq_false_iff_ne.mpr hx]

end Maps

/-- `nval_get` stops at the NUL of a stored name. -/
theorem skipName_eq {s rest : List UInt8} {pos : ℕ} {size : ℤ} (hs : 0 ∉ s)
    (hsize : (s.length : ℤ) < size) (hpos : pos + s.length < xbSize) :
    skipName xbSize (s ++ 0 :: rest) pos size = some (pos + s.length, size - s.length) := by
  induction s generalizing pos size with
  | nil => simp [skipName]
  | cons x s ih =>
    have hx : x ≠ 0 := fun h => hs (h ▸ mem_cons_self)
    rw [length_cons] at hsize hpos
    rw [cons_append, skipName, if_pos ⟨hx, by omega, by omega⟩,
      ih (fun h => hs (mem_cons_of_mem _ h)) (by omega) (by omega), length_cons]
    congr 2 <;> omega

/-- The names that `nval_list` writes to a buffer of `bsize` bytes which holds `copied` bytes. -/
def shown (bsize : ℕ) : ℕ → List Name → List Name
  | _, [] => []
  | copied, x :: xs =>
    if copied + x.1.length + 1 < bsize then x :: shown bsize (copied + x.1.length + 1) xs else []

/-- Names with their NULs. -/
def nameBytes (names : List Name) : List UInt8 := names.flatMap fun x => x.1 ++ [0]

namespace Stored

variable (hint : xbSize < 2 ^ 31) (hfour : 4 ≤ xbSize)
include hint hfour

theorem denotes (h : Stored xbSize mem rs) : Denotes xbSize mem (toMap rs) := by
  refine ⟨⟨rs, h, rfl⟩, fun name bsize => ?_⟩
  rcases h.cases_name name with hnot | ⟨pre, v, post, rfl, hpre, -⟩
  · rw [nvalGet, h.find_of_notMem hint hfour hnot, toMap_eq_none.mpr hnot]
    rfl
  · obtain ⟨z, tail, hmem, hz, hpos, -⟩ := h.around
    have hsize : recSize (name, v) = 4 + name.1.length + 1 + v.length := rfl
    have hread : readInt mem (enc pre).length = some (recSize (name, v) : ℤ) :=
      h.readInt_head hint fun hnil => by simp at hnil
    obtain ⟨rest, hdrop⟩ := h.drop_name
    have hskip : skipName xbSize (mem.drop ((enc pre).length + 4)) ((enc pre).length + 4)
        ((recSize (name, v) : ℤ) - 4) =
          some ((enc pre).length + 4 + name.1.length, (v.length : ℤ) + 1) := by
      rw [hdrop, skipName_eq name.2 (by omega) (by omega)]
      congr 2
      omega
    have hlen : ((v.length : ℤ) + 1 - 1) = v.length := by omega
    have hmod : ((v.length : ℤ) % 2 ^ 32).toNat = v.length := by omega
    rw [nvalGet, h.find_of_mem hint hfour hpre, toMap_of_notMem_append hpre, getResult]
    simp only [bind_eq_bind, bind_some, hread, hskip, hlen, hmod, cast_le, h.read_value]
    split_ifs <;> rfl

/-- The loop of `nval_list`, from a record on. -/
theorem listLoop_eq (h : Stored xbSize mem (pre ++ post)) (bsize n : ℕ) (hn : post.length < n)
    (buf : List UInt8) :
    listLoop xbSize bsize mem n ((enc pre).length : ℕ) (headSize post) buf false =
      some (buf ++ nameBytes (shown bsize buf.length (post.map Prod.fst))) := by
  induction post generalizing pre n buf with
  | nil =>
    obtain ⟨n, rfl⟩ := exists_eq_succ_of_ne_zero (ne_of_gt hn)
    rw [listLoop, if_neg (by simp [headSize])]
    simp [shown, nameBytes]
  | cons r post ih =>
    obtain ⟨n, rfl⟩ := exists_eq_succ_of_ne_zero (by omega : n ≠ 0)
    obtain ⟨z, tail, -, hz, hpos, -⟩ := h.around
    obtain ⟨rest, hdrop⟩ := h.drop_name
    have hsize : recSize r = 4 + r.1.1.length + 1 + r.2.length := rfl
    have hnext : ((enc pre).length : ℤ) + recSize r = ((enc (pre ++ [r])).length : ℕ) := by
      rw [enc_append, length_append, enc_cons, length_append, recBytes_length]
      simp [enc]
    have h' : Stored xbSize mem ((pre ++ [r]) ++ post) := by simpa using h
    have hat : (((enc pre).length : ℤ) + 4).toNat = (enc pre).length + 4 := by omega
    have hmod : (((recSize r : ℤ) - 4) % 2 ^ 32).toNat = recSize r - 4 := by omega
    rw [headSize, listLoop, if_pos ⟨.inr (by omega), by omega, by omega, rfl⟩, hat, hmod, hdrop,
      strnlen_eq r.1.2 (by omega)]
    simp only [bind_eq_bind, bind_some, hnext, h'.nextSize_head hint hfour,
      h.read_name, map_cons, shown]
    split_ifs with hfits
    · rw [ih h' n (by simpa using hn)]
      simp [nameBytes, add_assoc]
    · -- the buffer is filled, and the loop ends
      obtain ⟨n, rfl⟩ := exists_eq_succ_of_ne_zero (ne_of_gt (lt_of_le_of_lt
        (zero_le _) (lt_of_succ_lt_succ hn)))
      rw [listLoop, if_neg (by simp)]
      simp [nameBytes]

theorem list (h : Stored xbSize mem rs) (bsize : ℕ) :
    nvalList xbSize bsize mem = some (nameBytes (shown bsize 0 (rs.map Prod.fst))) := by
  obtain ⟨z, tail, -, hz, hpos, -⟩ := h.bytes
  have hle := length_le_enc rs
  have hstored : Stored xbSize mem ([] ++ rs) := h
  have hread : readInt mem 0 = some (headSize rs) := hstored.readInt_head hint fun _ => by
    simp only [enc, flatMap_nil, length_nil]
    omega
  rw [nvalList, hread]
  exact hstored.listLoop_eq hint hfour bsize _ (by omega) []

end Stored

/-- A record that fits in an `int` and does not fill the free space to its last byte. -/
def SetSafe (xbSize : ℕ) (name : Name) (buf : List UInt8) (mem : Mem) : Prop :=
  recSize (name, buf) < 2 ^ 31 ∧ ∀ start found, nvalUsed xbSize mem = some start →
    nvalFind xbSize mem name = some found →
      (recSize (name, buf) : ℤ) ≠ xbSize - start + found.elim 0 Prod.snd

/-- What `nval_set` may do to the map: it fails, for the reason it gives, and the memory is as
before, or the name has the value. -/
inductive SetDone (xbSize : ℕ) (name : Name) (buf : List UInt8) (flags : Flags) (mem : Mem)
    (m : Name → Option (List UInt8)) : ℤ × Mem → Prop
  | eexist (hflag : flags.create = true) (hname : m name ≠ none) :
      SetDone xbSize name buf flags mem m (-eexist, mem)
  | enodata (hflag : flags.replace = true) (hname : m name = none) :
      SetDone xbSize name buf flags mem m (-enodata, mem)
  | enospc {start : ℕ} {found : Option (ℕ × ℤ)} (hused : nvalUsed xbSize mem = some start)
      (hfind : nvalFind xbSize mem name = some found)
      (hfull : (xbSize : ℤ) - start + found.elim 0 Prod.snd < recSize (name, buf)) :
      SetDone xbSize name buf flags mem m (-enospc, mem)
  | done {mem' : Mem} (hcreate : flags.create = true → m name = none)
      (hreplace : flags.replace = true → m name ≠ none)
      (hmap : Denotes xbSize mem' (update m name (some buf))) :
      SetDone xbSize name buf flags mem m (0, mem')

/-- The length that `nval_set` compares with the space is too large exactly when the number of bytes
is, also for a name that is cut. -/
theorem reclen_gt_iff (name : Name) (v : List UInt8) {space : ℤ} (hspace : space ≤ xbSize)
    (hlt : recSize (name, v) < 2 ^ 31) :
    reclen xbSize name v > space ↔ space < recSize (name, v) := by
  by_cases hname : name.1.length ≤ xbSize
  · rw [reclen_eq hname hlt]
  · have hsize : recSize (name, v) = 4 + name.1.length + 1 + v.length := rfl
    have hcut : reclen xbSize name v = ((4 + xbSize + 1 + v.length : ℕ) : ℤ) := by
      unfold reclen
      simp only [Nat.min_eq_right (Nat.le_of_not_le hname)]
      exact bmod_of_lt (by omega)
    rw [hcut]
    omega

namespace Stored

variable (hint : xbSize < 2 ^ 31) (hfour : 4 ≤ xbSize)
include hint hfour

theorem set (h : Stored xbSize mem rs) (hsafe : SetSafe xbSize name v mem) (flags : Flags) :
    ∃ r, nvalSet xbSize name v flags mem = some r ∧
      SetDone xbSize name v flags mem (toMap rs) r := by
  obtain ⟨hlt, hexact⟩ := hsafe
  have hused := h.used hint hfour
  obtain ⟨z, tail, -, hz, hpos, -⟩ := h.bytes
  rcases h.cases_name name with hnot | ⟨pre, old, post, rfl, hpre, hpost⟩
  · have hnone := toMap_eq_none.mpr hnot
    have hfind := h.find_of_notMem hint hfour hnot
    have hne := hexact _ _ hused hfind
    -- the kernel is not to evaluate the lengths modulo 2 ^ 32
    simp -implicitDefEqProofs only [nvalSet, hfind, hused, bind_eq_bind, bind_some,
      isSome_none, Bool.and_false, isNone_none, Bool.and_true, elim_none,
      Bool.false_eq_true, if_false]
    by_cases hreplace : flags.replace = true
    · rw [if_pos hreplace]
      exact ⟨_, rfl, .enodata hreplace hnone⟩
    · rw [if_neg hreplace]
      have hspace : (xbSize : ℤ) - (enc rs).length + 0 ≤ xbSize := by omega
      simp only [reclen_gt_iff name v hspace hlt]
      split_ifs with hfull
      · exact ⟨_, rfl, .enospc hused hfind hfull⟩
      · rw [elim_none] at hne
        obtain ⟨mem', hput, hstored⟩ := h.put hint hfour hnot (v := v) (by omega)
        rw [hput]
        exact ⟨_, rfl, .done (fun _ => hnone) (fun hr => absurd hr hreplace)
          (toMap_add hnot ▸ hstored.denotes hint hfour)⟩
  · have hsome : toMap (pre ++ (name, old) :: post) name = some old := toMap_of_notMem_append hpre
    have hfind := h.find_of_mem hint hfour hpre
    have hne := hexact _ _ hused hfind
    simp -implicitDefEqProofs only [nvalSet, hfind, hused, bind_eq_bind, bind_some,
      isSome_some, Bool.and_false, isNone_some, Bool.and_true, elim_some,
      Bool.false_eq_true, if_false]
    by_cases hcreate : flags.create = true
    · rw [if_pos hcreate]
      exact ⟨_, rfl, .eexist hcreate (by rw [hsome]; simp)⟩
    · rw [if_neg hcreate]
      obtain ⟨mem₁, hdel, h₁⟩ := h.del hint hfour hpre
      have hnot : name ∉ (pre ++ post).map Prod.fst := by
        rw [map_append, mem_append]
        exact not_or.mpr ⟨hpre, hpost⟩
      have hlen : (enc (pre ++ (name, old) :: post)).length =
          (enc (pre ++ post)).length + recSize (name, old) := by
        simp only [enc_append, enc_cons, length_append, recBytes_length]
        omega
      have hspace : (xbSize : ℤ) - (enc (pre ++ (name, old) :: post)).length +
          recSize (name, old) ≤ xbSize := by omega
      simp only [reclen_gt_iff name v hspace hlt]
      split_ifs with hfull
      · exact ⟨_, rfl, .enospc hused hfind hfull⟩
      · rw [elim_some] at hne
        obtain ⟨mem', hput, hstored⟩ := h₁.put hint hfour hnot (v := v) (by omega)
        simp only [hdel, bind_some, h₁.used hint hfour, hput]
        refine ⟨_, rfl, .done (fun hc => absurd hc hcreate) (fun _ => by rw [hsome]; simp) ?_⟩
        have hmap := hstored.denotes hint hfour
        rwa [toMap_add hnot, toMap_remove (v := old) hpre hpost, update_idem] at hmap

end Stored

/-- The calls on a buffer. -/
inductive Op
  | set (name : Name) (buf : List UInt8) (flags : Flags)
  | del (name : Name)
  | get (name : Name) (bsize : ℕ)
  | hasvalues
  | list (bsize : ℕ)

/-- The memory after a call. -/
def Op.exec (xbSize : ℕ) (mem : Mem) : Op → Option Mem
  | .set name buf flags => (nvalSet xbSize name buf flags mem).map Prod.snd
  | .del name => (nvalDel xbSize name mem).map Prod.snd
  | .get name bsize => (nvalGet xbSize name bsize mem).map fun _ => mem
  | .hasvalues => (nvalHasvalues xbSize mem).map fun _ => mem
  | .list bsize => (nvalList xbSize bsize mem).map fun _ => mem

/-- The memory after some calls. -/
def run (xbSize : ℕ) (ops : List Op) (mem : Mem) : Option Mem :=
  ops.foldlM (fun mem op => op.exec xbSize mem) mem

/-- Every record to be stored is safe. -/
def Op.Safe (xbSize : ℕ) (mem : Mem) : Op → Prop
  | .set name buf _ => SetSafe xbSize name buf mem
  | _ => True

/-- Every call of a run is safe. -/
def Safe (xbSize : ℕ) : List Op → Mem → Prop
  | [], _ => True
  | op :: ops, mem => op.Safe xbSize mem ∧
      ∀ mem', op.exec xbSize mem = some mem' → Safe xbSize ops mem'

/-- Every call acts on the map `m` that the memory denotes as it should. -/
structure Refines (xbSize : ℕ) (mem : Mem) (m : Name → Option (List UInt8)) : Prop where
  denotes : Denotes xbSize mem m
  set (name : Name) (buf : List UInt8) (flags : Flags) (hsafe : SetSafe xbSize name buf mem) :
    ∃ r, nvalSet xbSize name buf flags mem = some r ∧ SetDone xbSize name buf flags mem m r
  del (name : Name) (hname : m name ≠ none) : ∃ mem', nvalDel xbSize name mem = some (0, mem') ∧
    Denotes xbSize mem' (update m name none)
  del_absent (name : Name) (hname : m name = none) : nvalDel xbSize name mem = some (-enodata, mem)
  hasvalues : ∃ b, nvalHasvalues xbSize mem = some b ∧ (b = true ↔ ∃ name, m name ≠ none)
  list : ∃ names : List Name, names.Nodup ∧ (∀ name, name ∈ names ↔ m name ≠ none) ∧
    ∀ bsize, nvalList xbSize bsize mem = some (nameBytes (shown bsize 0 names)) ∧
      ((nameBytes names).length < bsize → shown bsize 0 names = names)

theorem shown_of_lt {names : List Name} {copied : ℕ}
    (h : copied + (nameBytes names).length < bsize) : shown bsize copied names = names := by
  induction names generalizing copied with
  | nil => rfl
  | cons x names ih =>
    simp only [nameBytes, flatMap_cons, length_append, length_singleton] at h ih
    rw [shown, if_pos (by omega), ih (by omega)]

theorem Stored.refines (hint : xbSize < 2 ^ 31) (hfour : 4 ≤ xbSize) (h : Stored xbSize mem rs) :
    Refines xbSize mem (toMap rs) where
  denotes := h.denotes hint hfour
  set name buf flags hsafe := h.set hint hfour hsafe flags
  del name hname := by
    rcases h.cases_name name with hnot | ⟨pre, v, post, rfl, hpre, hpost⟩
    · exact absurd (toMap_eq_none.mpr hnot) hname
    · obtain ⟨mem', hdel, h'⟩ := h.del hint hfour hpre
      exact ⟨mem', hdel, toMap_remove hpre hpost ▸ h'.denotes hint hfour⟩
  del_absent name hname := by
    rw [nvalDel, h.find_of_notMem hint hfour (toMap_eq_none.mp hname)]
    rfl
  hasvalues := by
    refine ⟨_, by rw [nvalHasvalues, h.used hint hfour]; rfl, ?_⟩
    rw [decide_eq_true_iff]
    cases rs with
    | nil => simp [enc, toMap]
    | cons r rs =>
      refine ⟨fun _ => ⟨r.1, ?_⟩, fun _ => lt_of_lt_of_le ?_ (length_le_enc _)⟩
      · rw [Ne, toMap_eq_none]
        simp
      · simp
  list := by
    refine ⟨rs.map Prod.fst, h.nodup, fun name => ?_, fun bsize => ⟨h.list hint hfour bsize, ?_⟩⟩
    · rw [Ne, toMap_eq_none, not_not]
    · exact fun hlt => shown_of_lt (by omega)

theorem Refines.exec (h : Refines xbSize mem m) (op : Op) (hsafe : op.Safe xbSize mem) :
    ∃ mem' m', op.exec xbSize mem = some mem' ∧ Denotes xbSize mem' m' := by
  cases op with
  | set name buf flags =>
    obtain ⟨r, hset, hdone⟩ := h.set name buf flags hsafe
    rw [Op.exec, hset]
    cases hdone with
    | eexist | enodata | enospc => exact ⟨mem, m, rfl, h.denotes⟩
    | done _ _ hmap => exact ⟨_, _, rfl, hmap⟩
  | del name =>
    rw [Op.exec]
    by_cases hname : m name = none
    · rw [h.del_absent name hname]
      exact ⟨mem, m, rfl, h.denotes⟩
    · obtain ⟨mem', hdel, hmap⟩ := h.del name hname
      rw [hdel]
      exact ⟨mem', _, rfl, hmap⟩
  | get name bsize =>
    rw [Op.exec, h.denotes.get]
    exact ⟨mem, m, rfl, h.denotes⟩
  | hasvalues =>
    obtain ⟨b, hb, -⟩ := h.hasvalues
    rw [Op.exec, hb]
    exact ⟨mem, m, rfl, h.denotes⟩
  | list bsize =>
    obtain ⟨names, -, -, hlist⟩ := h.list
    rw [Op.exec, (hlist bsize).1]
    exact ⟨mem, m, rfl, h.denotes⟩

/-- From a buffer that denotes a map, every safe sequence of calls returns and leads to one. -/
theorem Denotes.run (hint : xbSize < 2 ^ 31) (hfour : 4 ≤ xbSize) {ops : List Op}
    (h : Denotes xbSize mem m) (hsafe : Safe xbSize ops mem) :
    ∃ mem' m', run xbSize ops mem = some mem' ∧ Refines xbSize mem' m' := by
  obtain ⟨⟨rs, hstored, rfl⟩, -⟩ := h
  have href := hstored.refines hint hfour
  induction ops generalizing mem rs with
  | nil => exact ⟨mem, _, rfl, href⟩
  | cons op ops ih =>
    obtain ⟨mem', m', hexec, ⟨rs', hstored', rfl⟩, -⟩ := href.exec op hsafe.1
    obtain ⟨mem'', m'', hrun, hdone⟩ :=
      ih (hsafe.2 mem' hexec) rs' hstored' (hstored'.refines hint hfour)
    refine ⟨mem'', m'', ?_, hdone⟩
    simp only [NameVal.run] at hrun ⊢
    rw [foldlM_cons, hexec]
    exact hrun

theorem stored_init (hmem : xbSize + 4 ≤ mem.length) (hpos : 0 < xbSize)
    (hzero : mem.take xbSize = replicate xbSize 0) : Stored xbSize mem [] := by
  refine ⟨⟨xbSize, mem.drop xbSize, ?_, zero_add _, hpos, ?_⟩, nodup_nil⟩
  · rw [← hzero, take_append_drop]
    rfl
  · rw [length_drop]
    omega

/-- In every run from an empty buffer of at least four bytes, with four bytes of memory behind it,
in which no record fills the space to its last byte and every length fits in an `int`, every call
returns; and in the state that is reached the buffer denotes a finite map on which every call acts
as it should. The list has all the names if the caller's buffer has room for one byte more. -/
theorem store_refines_map (xbSize : ℕ) (hint : xbSize < 2 ^ 31) (hfour : 4 ≤ xbSize) (mem : Mem)
    (hmem : xbSize + 4 ≤ mem.length) (hzero : mem.take xbSize = replicate xbSize 0)
    (ops : List Op) (hsafe : Safe xbSize ops mem) :
    ∃ mem' m, run xbSize ops mem = some mem' ∧ Refines xbSize mem' m :=
  ((stored_init hmem (by omega) hzero).denotes hint hfour).run hint hfour hsafe

/-- The name `a`. -/
def nameA : Name := ⟨[97], by decide⟩

theorem setSafe_of {start : ℕ} {found : Option (ℕ × ℤ)} (hused : nvalUsed xbSize mem = some start)
    (hfind : nvalFind xbSize mem name = some found) (hlt : recSize (name, v) < 2 ^ 31)
    (hne : (recSize (name, v) : ℤ) ≠ xbSize - start + found.elim 0 Prod.snd) :
    SetSafe xbSize name v mem := by
  refine ⟨hlt, fun start' found' hused' hfind' => ?_⟩
  rw [hused, some_inj] at hused'
  rw [hfind, some_inj] at hfind'
  rwa [← hused', ← hfind']

theorem store_refines_map_thirtyTwo :
    ∃ mem' m, run 32 [.set nameA [1, 2] ⟨true, false⟩, .get nameA 2, .del nameA]
      (replicate 36 0) = some mem' ∧ Refines 32 mem' m :=
  store_refines_map 32 (by decide) (by decide) _ (by decide) (by decide) _
    ⟨setSafe_of (show nvalUsed 32 (replicate 36 0) = some 0 by decide +kernel)
      (show nvalFind 32 (replicate 36 0) nameA = some none by decide +kernel) (by decide)
      (by decide), fun _ _ => ⟨trivial, fun _ _ => ⟨trivial, fun _ _ => trivial⟩⟩⟩

/-- A value that fills a buffer of 16 bytes is stored with success, and is not found again. -/
theorem full_record_not_found : ∃ mem',
    nvalSet 16 nameA [1, 2, 3, 4, 5, 6, 7, 8, 9, 10] ⟨false, false⟩ (replicate 20 0) =
      some (0, mem') ∧ nvalGet 16 nameA 10 mem' = some (-enodata, []) :=
  ⟨[16, 0, 0, 0, 97, 0, 1, 2, 3, 4, 5, 6, 7, 8, 9, 10, 0, 0, 0, 0], by decide +kernel,
    by decide +kernel⟩

section Writes

variable {pos lo hi : ℕ} {mem₁ mem' : Mem} {bytes : List UInt8}

/-- Only bytes from `lo` up to `hi` are written. -/
def Within (lo hi : ℕ) (mem mem' : Mem) : Prop := ∀ i, i < lo ∨ hi ≤ i → mem'[i]? = mem[i]?

theorem Within.trans {lo' : ℕ} (h : Within lo hi mem mem₁) (h' : Within lo' hi mem₁ mem')
    (hlo : lo ≤ lo') : Within lo hi mem mem' :=
  fun i hi => (h' i (by omega)).trans (h i hi)

theorem write_within (h : write mem pos bytes = some mem') (hlo : lo ≤ pos)
    (hhi : pos + bytes.length ≤ hi) : Within lo hi mem mem' := by
  intro i hi
  rw [write] at h
  split_ifs at h
  cases h
  rw [getElem?_splice (by omega)]
  split_ifs <;> first | rfl | omega

theorem walk_found {test : ℕ → ℤ → Option Bool} {fuel pos' : ℕ} {size size' : ℤ}
    (hsize : 0 < size → readInt mem pos = some size)
    (h : walk xbSize mem test fuel pos size = some (pos', some size')) :
    0 < size' ∧ pos' + size' < xbSize ∧ readInt mem pos' = some size' := by
  induction fuel generalizing pos size with
  | zero => cases h
  | succ fuel ih =>
    rw [walk] at h
    split_ifs at h with hin
    · obtain ⟨b, -, h⟩ := bind_eq_some_iff.mp h
      split_ifs at h
      · cases h
        exact ⟨hin.1, hin.2.2, hsize hin.1⟩
      · obtain ⟨next, hnext, h⟩ := bind_eq_some_iff.mp h
        refine ih (fun hpos => ?_) h
        rw [nextSize] at hnext
        split_ifs at hnext
        · exact hnext
        · cases hnext
          omega
    · cases h

theorem nvalFind_found {size : ℤ} (h : nvalFind xbSize mem name = some (some (pos, size))) :
    0 < size ∧ pos + size < xbSize ∧ readInt mem pos = some size := by
  obtain ⟨first, hfirst, h⟩ := bind_eq_some_iff.mp h
  obtain ⟨⟨p, o⟩, hwalk, h⟩ := bind_eq_some_iff.mp h
  cases o with
  | none => cases h
  | some size =>
    cases h
    exact walk_found (fun _ => hfirst) hwalk

/-- `nval_del` writes to the buffer only. -/
theorem nvalDel_within {r : ℤ} (h : nvalDel xbSize name mem = some (r, mem')) :
    Within 0 xbSize mem mem' := by
  obtain ⟨found, hfind, h⟩ := bind_eq_some_iff.mp h
  cases found with
  | none =>
    cases h
    exact fun _ _ => rfl
  | some found =>
    obtain ⟨hpos, hlt, hread⟩ := nvalFind_found hfind
    obtain ⟨size, hsize, h⟩ := bind_eq_some_iff.mp h
    cases hsize.symm.trans hread
    obtain ⟨rest, hrest, h⟩ := bind_eq_some_iff.mp h
    obtain ⟨mem₁, hmove, h⟩ := bind_eq_some_iff.mp h
    obtain ⟨mem₂, hclear, h⟩ := bind_eq_some_iff.mp h
    cases h
    have hlen : rest.length ≤ xbSize - (found.1 + found.2.toNat) := by
      rw [read] at hrest
      split_ifs at hrest
      cases hrest
      exact length_take_le _ _
    exact (write_within hmove (zero_le _) (by omega)).trans
      (write_within hclear (zero_le _) (by rw [length_replicate]; omega)) le_rfl

/-- The length of a record, as a number. -/
def recordLen (xbSize : ℕ) (name : Name) (v : List UInt8) : ℕ :=
  4 + min name.1.length xbSize + 1 + v.length

/-- What is written from the start of the record on. The copy of the name has the length of the
whole record, so that with its padding it ends four bytes behind the record. -/
def recordBytes (xbSize : ℕ) (name : Name) (v : List UInt8) : List UInt8 :=
  leBytes 4 (recordLen xbSize name v) ++
    splice (strncpy name (recordLen xbSize name v)) (min name.1.length xbSize + 1) v

theorem length_strncpy (name : Name) (n : ℕ) : (strncpy name n).length = n := by
  rw [strncpy, length_append, length_take, length_replicate]
  omega

/-- The three copies put these bytes into the memory. -/
theorem putRecord_getElem? {start : ℕ} (hlen : recordLen xbSize name v < 2 ^ 32)
    (h : putRecord xbSize name v start mem = some mem') (i : ℕ) :
    mem'[i]? = if start ≤ i ∧ i < start + 4 + recordLen xbSize name v
      then (recordBytes xbSize name v)[i - start]? else mem[i]? := by
  have hwrap (n : ℕ) (hn : n < 2 ^ 32) : ((n : ℤ).bmod (2 ^ 32) % 2 ^ 32).toNat = n := by
    rw [Int.bmod_def]
    split_ifs <;> omega
  have hreclen : (reclen xbSize name v % 2 ^ 32).toNat = recordLen xbSize name v := hwrap _ hlen
  unfold putRecord at h
  rw [hreclen] at h
  obtain ⟨mem₁, hsize, h⟩ := bind_eq_some_iff.mp h
  obtain ⟨mem₂, hname, h⟩ := bind_eq_some_iff.mp h
  rw [write] at hsize hname h
  split_ifs at hsize hname h
  cases hsize
  cases hname
  cases h
  rw [leBytes_length, length_strncpy] at *
  have hsplice : min name.1.length xbSize + 1 ≤
      (strncpy name (recordLen xbSize name v)).length := by
    rw [length_strncpy, recordLen]
    omega
  have hsum : recordLen xbSize name v = 4 + min name.1.length xbSize + 1 + v.length := rfl
  rw [recordBytes, getElem?_append, leBytes_length, getElem?_splice hsplice]
  rw [getElem?_splice (by omega), getElem?_splice (by omega), getElem?_splice (by omega),
    leBytes_length, length_strncpy]
  simp only [Nat.sub_sub]
  split_ifs <;> first | omega | rfl

/-- The call is not refused; `mem₁` is the memory without an old record of the name, and the records
there end at `start`. -/
def Placed (xbSize : ℕ) (name : Name) (v : List UInt8) (flags : Flags) (mem mem₁ : Mem)
    (start : ℕ) : Prop :=
  ∃ found used, nvalFind xbSize mem name = some found ∧ nvalUsed xbSize mem = some used ∧
    (flags.create && found.isSome) = false ∧ (flags.replace && found.isNone) = false ∧
    reclen xbSize name v ≤ xbSize - used + found.elim 0 Prod.snd ∧
    (∃ r, nvalDel xbSize name mem = some (r, mem₁)) ∧ nvalUsed xbSize mem₁ = some start

/-- A call that is refused leaves the memory, and any other one puts the record where the records
end once an old one of the name is deleted. -/
theorem nvalSet_cases {r : ℤ} {flags : Flags}
    (h : nvalSet xbSize name v flags mem = some (r, mem')) :
    (mem' = mem ∧ ∀ mem₁ start, ¬ Placed xbSize name v flags mem mem₁ start) ∨
      ∃ mem₁ start, Placed xbSize name v flags mem mem₁ start ∧
        putRecord xbSize name v start mem₁ = some mem' := by
  obtain ⟨found, hfind, h⟩ := bind_eq_some_iff.mp h
  have hfull {used : ℕ} (hused : nvalUsed xbSize mem = some used)
      (hlt : xbSize - used + found.elim 0 Prod.snd < reclen xbSize name v) (mem₁ : Mem)
      (start : ℕ) : ¬ Placed xbSize name v flags mem mem₁ start := by
    rintro ⟨found', used', hfind', hused', _, _, hle, _⟩
    cases hfind.symm.trans hfind'
    cases hused.symm.trans hused'
    omega
  split_ifs at h with hcreate hreplace hsome
  · cases h
    refine .inl ⟨rfl, fun mem₁ start ⟨found', used, hfind', _, hc, _⟩ => ?_⟩
    cases hfind.symm.trans hfind'
    exact Bool.false_ne_true (hc.symm.trans hcreate)
  · cases h
    refine .inl ⟨rfl, fun mem₁ start ⟨found', used, hfind', _, _, hr, _⟩ => ?_⟩
    cases hfind.symm.trans hfind'
    exact Bool.false_ne_true (hr.symm.trans hreplace)
  all_goals obtain ⟨used, hused, h⟩ := bind_eq_some_iff.mp h
  all_goals dsimp only at h
  all_goals split_ifs at h with hspace
  · cases h
    exact .inl ⟨rfl, hfull hused hspace⟩
  · obtain ⟨⟨r, mem₁⟩, hdel, h⟩ := bind_eq_some_iff.mp h
    obtain ⟨start, hstart, h⟩ := bind_eq_some_iff.mp h
    obtain ⟨mem₂, hput, h⟩ := bind_eq_some_iff.mp h
    cases h
    exact .inr ⟨mem₁, start, ⟨found, used, hfind, hused, Bool.eq_false_iff.mpr hcreate,
      Bool.eq_false_iff.mpr hreplace, not_lt.mp hspace, ⟨r, hdel⟩, hstart⟩, hput⟩
  · cases h
    exact .inl ⟨rfl, hfull hused hspace⟩
  · obtain ⟨mem₂, hput, h⟩ := bind_eq_some_iff.mp h
    cases h
    obtain rfl : found = none := by simpa using hsome
    have hdel : nvalDel xbSize name mem = some (-enodata, mem) := by
      rw [nvalDel, hfind]
      rfl
    exact .inr ⟨mem, used, ⟨none, used, hfind, hused, Bool.eq_false_iff.mpr hcreate,
      Bool.eq_false_iff.mpr hreplace, not_lt.mp hspace, ⟨_, hdel⟩, hused⟩, hput⟩

/-- `nval_set` writes to the buffer only, and behind the records that are there once an old record
of the name is deleted, exactly if it is refused or the bytes behind the buffer that the record
reaches with its padding are already what is written there. So it does if the record fits with four
bytes more. The memory is any one in which the call reads and writes, so it may go on behind the
buffer. -/
theorem nvalSet_within {r : ℤ} {flags : Flags} (hlen : recordLen xbSize name v < 2 ^ 32)
    (h : nvalSet xbSize name v flags mem = some (r, mem')) :
    (Within 0 xbSize mem mem' ∧ (mem' = mem ∨ ∃ mem₁ start,
      Placed xbSize name v flags mem mem₁ start ∧ Within start xbSize mem₁ mem')) ↔
    ∀ mem₁ start, Placed xbSize name v flags mem mem₁ start →
      ∀ i, xbSize ≤ i → start ≤ i → i < start + 4 + recordLen xbSize name v →
        mem[i]? = (recordBytes xbSize name v)[i - start]? := by
  rcases nvalSet_cases h with ⟨rfl, hrefused⟩ | ⟨mem₁, start, hplaced, hput⟩
  · exact iff_of_true ⟨fun _ _ => rfl, .inl rfl⟩ fun mem₁ start h => absurd h (hrefused mem₁ start)
  have hat := putRecord_getElem? hlen hput
  obtain ⟨_, _, hfind, hused, _, _, _, ⟨r₁, hdel⟩, hstart⟩ := id hplaced
  have hbehind (i : ℕ) (hi : xbSize ≤ i) : mem₁[i]? = mem[i]? := nvalDel_within hdel i (.inr hi)
  refine ⟨fun ⟨hwithin, _⟩ mem₂ start₂ hplaced₂ i hi hle hlt => ?_, fun hsame => ?_⟩
  · obtain ⟨_, _, _, _, _, _, _, ⟨r₂, hdel₂⟩, hstart₂⟩ := hplaced₂
    cases hdel.symm.trans hdel₂
    cases hstart.symm.trans hstart₂
    rw [← hwithin i (.inr hi), hat, if_pos ⟨hle, hlt⟩]
  · have hwithin : Within start xbSize mem₁ mem' := by
      intro i hi
      rw [hat]
      split_ifs with hin
      · have hge : xbSize ≤ i := by omega
        rw [hbehind i hge, hsame mem₁ start hplaced i hge hin.1 hin.2]
      · rfl
    exact ⟨(nvalDel_within hdel).trans hwithin (zero_le _),
      .inr ⟨mem₁, start, hplaced, hwithin⟩⟩

/-- The first record of a buffer of 32 bytes, with four bytes behind the buffer. -/
theorem nvalSet_within_first : ∃ mem', nvalSet 32 nameA [1, 2] ⟨true, false⟩ (replicate 36 0) =
    some (0, mem') ∧ Within 0 32 (replicate 36 0) mem' := by
  have hdel : nvalDel 32 nameA (replicate 36 0) = some (-enodata, replicate 36 0) := by
    decide +kernel
  have hused : nvalUsed 32 (replicate 36 0) = some 0 := by decide +kernel
  have hset : nvalSet 32 nameA [1, 2] ⟨true, false⟩ (replicate 36 0) =
      some (0, [8, 0, 0, 0, 97, 0, 1, 2] ++ replicate 28 0) := by decide +kernel
  refine ⟨_, hset, ((nvalSet_within (by decide) hset).mpr ?_).1⟩
  rintro mem₁ start ⟨_, _, _, _, _, _, _, ⟨r, hd⟩, hu⟩ i hi - hlt
  cases hdel.symm.trans hd
  cases hused.symm.trans hu
  have hlen : recordLen 32 nameA [1, 2] = 8 := rfl
  omega

/-- A record that fills a buffer of 16 bytes: the four bytes behind the buffer are cleared. -/
theorem nvalSet_past_buffer :
    (nvalSet 16 nameA (replicate 10 1) ⟨true, false⟩ (replicate 16 0 ++ replicate 4 7)).map
      (fun r => (r.1, r.2.drop 16)) = some (0, replicate 4 0) := by decide +kernel

end Writes

end AndroidKernel.NameVal
