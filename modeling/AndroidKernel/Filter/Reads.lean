import AndroidKernel.Filter.Safety

/-!
# What filters read of the packet

A load relative to a header is checked against the tail of the packet by its first byte only. The
bounds of the two loads of netlink attributes are differences that wrap, and the second one is the
wrong way round. So each reads behind the end of some packets; where it does not is said here.
-/

namespace AndroidKernel.Filter

open SkBuff Opcode

variable {skb : SkBuff} {vm : Vm} {fentry : SockFilter} {k : ℤ}

section Packet

/-- A byte of the packet, or of the memory around `skb->data`. -/
inductive Byte where
  | packet (i : ℕ)
  | memory (pos : ℤ)

namespace SkBuff

variable (skb : SkBuff)

/-- The value of a byte. -/
def byte : Byte → BitVec 8
  | .packet i => skb.packet i
  | .memory pos => skb.memory pos

/-- The byte is one of the packet, or lies between `skb->head` and the tail. -/
def Holds : Byte → Prop
  | .packet i => i < skb.len.toNat
  | .memory pos => skb.head ≤ pos ∧ pos < skb.tail

/-- The position that `__load_pointer` gives. -/
def headerPointer (k : ℤ) : Option ℤ :=
  let ptr : Option ℤ :=
    if skfNetOff ≤ k then some (skb.networkHeader + k - skfNetOff)
    else if skfLlOff ≤ k then some (skb.macHeader + k - skfLlOff)
    else none
  ptr.filter fun ptr => skb.head ≤ ptr ∧ ptr < skb.tail

/-- The bytes at the pointer that `load_pointer` gives. -/
def pointer (k : ℤ) (size : ℕ) : Option (ℕ → Byte) :=
  if 0 ≤ k then
    if k ≤ skb.len.toInt - size then some fun i => .packet (k.toNat + i) else none
  else if skfAdOff ≤ k then none
  else (skb.headerPointer k).map fun ptr i => .memory (ptr + i)

theorem loadPointer_eq (skb : SkBuff) (k : ℤ) (size : ℕ) :
    skb.loadPointer k size = (skb.pointer k size).map fun a i => skb.byte (a i) := by
  unfold loadPointer loadPointerNegative pointer headerPointer
  split_ifs <;> simp_all [byte, Option.filter]

end SkBuff

theorem toInt_le_toNat (v : BitVec 32) : v.toInt ≤ v.toNat := by
  rw [BitVec.toInt_eq_toNat_cond]
  split_ifs <;> omega

/-- The bytes at a pointer are inside exactly if a load relative to a header ends before the
tail. -/
theorem pointer_inside_iff {size : ℕ} (hsize : 0 < size) :
    (∀ a, skb.pointer k size = some a → ∀ i < size, skb.Holds (a i)) ↔
      (k < skfAdOff → ∀ ptr ∈ skb.headerPointer k, ptr + size ≤ skb.tail) := by
  have hoff : skfAdOff = -0x1000 := rfl
  have hcheck {ptr : ℤ} (h : ptr ∈ skb.headerPointer k) : skb.head ≤ ptr ∧ ptr < skb.tail := by
    simpa using (Option.filter_eq_some_iff.mp h).2
  refine ⟨fun h hk ptr hptr => ?_, fun htail a h i hi => ?_⟩
  · have hpointer : skb.pointer k size = some fun i => .memory (ptr + i) := by
      rw [pointer, if_neg (by omega), if_neg (by omega), hptr, Option.map_some]
    have hlast := (h _ hpointer (size - 1) (by omega)).2
    omega
  · unfold pointer at h
    split_ifs at h with hk hlen had
    · cases h
      have hle := toInt_le_toNat skb.len
      simp only [Holds]
      omega
    · obtain ⟨ptr, hptr, rfl⟩ := Option.map_eq_some_iff.mp h
      have hend := htail (not_le.mp had) ptr hptr
      have hhead := (hcheck hptr).1
      exact ⟨by omega, by omega⟩

/-- The offset and the size of the packet load of an instruction. -/
def packetLoad (vm : Vm) (fentry : SockFilter) : Option (ℤ × ℕ) :=
  match decode fentry.code with
  | some (.ldAbs size) => some (fentry.k.toInt, size.bytes)
  | some (.ldInd size) => some ((vm.x + fentry.k).toInt, size.bytes)
  | some .ldxMsh => some (fentry.k.toInt, 1)
  | _ => none

/-- The machine after a packet load of some bytes. -/
def loaded (vm : Vm) (fentry : SockFilter) (bytes : ℕ → BitVec 8) : Vm :=
  match decode fentry.code with
  | some (.ldAbs size) | some (.ldInd size) => { vm with a := size.value bytes }
  | some .ldxMsh => { vm with x := ((bytes 0 &&& 0xf).setWidth 32) <<< 2 }
  | _ => vm

/-- The load of the word at the network header. -/
def netWord : SockFilter := ⟨(Opcode.ldAbs .w).code, 0, 0, BitVec.ofInt 32 skfNetOff⟩

/-- The filter that returns that word. -/
def returnNetWord : List SockFilter := [netWord, ⟨retA.code, 0, 0, 0⟩]

/-- A packet with its tail, and a byte in the memory behind `skb->data`. -/
def shortPacket (tail : ℤ) (value : BitVec 8) : SkBuff :=
  { emptyPacket with tail := tail, memory := fun pos => if pos = 3 then value else 0 }

/-- An accepted filter returns a byte from behind the tail. -/
theorem load_reads_past_tail : skChkFilter returnNetWord = 0 ∧
      skRunFilter returnNetWord (shortPacket 1 7) (fun _ => 0) 2 = some (.returned 7) ∧
      skRunFilter returnNetWord (shortPacket 1 8) (fun _ => 0) 2 = some (.returned 8) ∧
      ¬ (shortPacket 1 7).Holds (.memory 3) :=
  ⟨by decide +kernel, by decide +kernel, by decide +kernel, fun h => absurd h.2 (by decide)⟩

/-- A packet load returns zero or loads the bytes at its pointer. -/
theorem execInsn_packetLoad (skb : SkBuff) {size : ℕ}
    (hload : packetLoad vm fentry = some (k, size)) (hpacket : skfAdOff ≤ k → 0 ≤ k) :
    0 < size ∧ execInsn skb vm fentry =
      match skb.pointer k size with
      | none => .error .dropped
      | some a => .ok (loaded vm fentry fun i => skb.byte (a i)) := by
  have hancillary : ancillary skb vm k = .error .dropped := by
    have hoff : skfAdOff = -0x1000 := rfl
    unfold ancillary
    dsimp only
    split <;> first | rfl | omega
  have hbytes (s : Size) : 0 < s.bytes := by cases s <;> decide
  unfold packetLoad at hload
  unfold execInsn loaded load
  split at hload
  iterate 2
    next s hdecode =>
      cases hload
      refine ⟨hbytes s, ?_⟩
      simp only [hdecode, loadPointer_eq]
      generalize skb.pointer _ s.bytes = bytes
      cases bytes with
      | none => exact hancillary
      | some a => rfl
  next hdecode =>
    cases hload
    refine ⟨Nat.one_pos, ?_⟩
    simp only [hdecode, loadPointer_eq]
    cases skb.pointer fentry.k.toInt 1 <;> rfl
  next => cases hload

/-- Every packet load returns zero or loads the bytes at its pointer, and these are bytes of the
packet or between `skb->head` and the tail exactly if the load is not relative to a header or ends
before the tail. -/
theorem packet_loads_inside (skb : SkBuff) (vm : Vm) (fentry : SockFilter) (k : ℤ) (size : ℕ)
    (hload : packetLoad vm fentry = some (k, size)) (hpacket : skfAdOff ≤ k → 0 ≤ k) :
    (execInsn skb vm fentry =
      match skb.pointer k size with
      | none => .error .dropped
      | some a => .ok (loaded vm fentry fun i => skb.byte (a i))) ∧
      ((∀ a, skb.pointer k size = some a → ∀ i < size, skb.Holds (a i)) ↔
        (k < skfAdOff → ∀ ptr ∈ skb.headerPointer k, ptr + size ≤ skb.tail)) := by
  obtain ⟨hsize, hexec⟩ := execInsn_packetLoad skb hload hpacket
  exact ⟨hexec, pointer_inside_iff hsize⟩

/-- The word at the network header lies in a packet of four bytes. -/
theorem packet_loads_inside_fourBytes :
    (execInsn (shortPacket 4 7) (.start fun _ => 0) netWord).toOption.map Vm.a = some 7 ∧
      ∀ a, (shortPacket 4 7).pointer skfNetOff 4 = some a →
        ∀ i < 4, (shortPacket 4 7).Holds (a i) :=
  ⟨by decide +kernel, (packet_loads_inside _ (.start fun _ => 0) netWord skfNetOff 4
    (by decide +kernel) (by decide)).2.mpr (by decide +kernel)⟩

end Packet

section Nlattr

namespace SkBuff

/-- The packet in other memory. -/
def withMemory (skb : SkBuff) (memory : ℤ → BitVec 8) : SkBuff := { skb with memory := memory }

/-- The memory agrees with the message `skb->data[0 .. skb->len)`. -/
def SameMessage (skb : SkBuff) (memory : ℤ → BitVec 8) : Prop :=
  ∀ pos : ℤ, 0 ≤ pos → pos < skb.len.toNat → memory pos = skb.memory pos

/-- There is an attribute in the message at the offset. -/
def HasAttribute (skb : SkBuff) (pos : ℤ) : Prop :=
  0 ≤ pos ∧ 4 ≤ skb.nlaLen pos ∧ pos + skb.nlaLen pos ≤ skb.len.toNat

variable {memory : ℤ → BitVec 8}

theorem SameMessage.nlaLen (h : skb.SameMessage memory) {pos : ℤ} (hpos : 0 ≤ pos)
    (hend : pos + 2 ≤ skb.len.toNat) : (skb.withMemory memory).nlaLen pos = skb.nlaLen pos := by
  simp only [SkBuff.nlaLen, withMemory, h pos hpos (by omega), h (pos + 1) (by omega) (by omega)]

/-- `nla_find` reads and finds what is in the part of the message that it is given. -/
theorem SameMessage.nlaFind (h : skb.SameMessage memory) {attrtype : ℤ} {fuel : ℕ} {pos rem : ℤ}
    (hpos : 0 ≤ pos) (hend : 4 ≤ rem → pos + rem ≤ skb.len.toNat) :
    (skb.withMemory memory).nlaFind attrtype fuel pos rem = skb.nlaFind attrtype fuel pos rem ∧
      ∀ nla ∈ skb.nlaFind attrtype fuel pos rem, skb.HasAttribute nla := by
  induction fuel generalizing pos rem with
  | zero => exact ⟨rfl, by simp [SkBuff.nlaFind]⟩
  | succ fuel ih =>
    rw [SkBuff.nlaFind, SkBuff.nlaFind]
    by_cases hrem : 4 ≤ rem
    · have hend := hend hrem
      have htype : (skb.withMemory memory).nlaType pos = skb.nlaType pos := by
        simp only [nlaType, withMemory, h (pos + 2) (by omega) (by omega),
          h (pos + 3) (by omega) (by omega)]
      -- the end of the part stays where it is
      have hnext := @ih (pos + nlaAlign (skb.nlaLen pos)) (rem - nlaAlign (skb.nlaLen pos))
        (by omega) (by omega)
      rw [h.nlaLen hpos (by omega), htype]
      split_ifs with hok hfound
      · refine ⟨rfl, ?_⟩
        rintro _ ⟨⟩
        exact ⟨hpos, hok.2.1, by omega⟩
      · exact hnext
      · exact ⟨rfl, by simp⟩
    · simp [hrem]

end SkBuff

theorem le_len_of_not_lt {len a : BitVec 32} (hlen : 4 ≤ len.toNat) (h : ¬ len - 4 < a) :
    a.toNat + 4 ≤ len.toNat := by
  have hsub : (len - 4).toNat = len.toNat - 4 := BitVec.toNat_sub_of_le hlen
  have hle : a.toNat ≤ (len - 4).toNat := not_lt.mp h
  omega

/-- The part of the message that `SKF_AD_NLATTR` and `SKF_AD_NLATTR_NEST` search. -/
def nlattrPart (skb : SkBuff) (vm : Vm) (nest : Prop) [Decidable nest] : ℤ × ℤ :=
  if nest then (vm.a.toNat + 4, skb.nlaLen vm.a.toNat - 4)
  else (vm.a.toNat, (skb.len - vm.a).toInt)

theorem ancillary_nlattr (skb : SkBuff) (vm : Vm) (hk : k - skfAdOff = 12 ∨ k - skfAdOff = 16) :
    ancillary skb vm k =
      if (skb.nonlinear ∨ skb.len - 4 < vm.a) ∨ (k - skfAdOff = 16 ∧
        vm.a - skb.len < BitVec.ofNat 32 (skb.nlaLen vm.a.toNat)) then .error .dropped
      else
        let part := nlattrPart skb vm (k - skfAdOff = 16)
        let nla := skb.nlaFind vm.x.toInt part.2.toNat part.1 part.2
        .ok { vm with a := BitVec.ofInt 32 (nla.getD 0) } := by
  rcases hk with hk | hk <;> simp [ancillary, nlattrPart, hk, or_assoc]

/-- The step returns at once, before it reads the message. -/
def OutOfMessage (skb : SkBuff) (vm : Vm) : Prop := skb.nonlinear ∨ skb.len - 4 < vm.a

/-- The message has room for what the step reads: for the nested step the length of the attribute
at `A`, and the attribute itself if others can be nested in it; else the attribute header at `A`,
unless the difference of the lengths says that there is none. -/
def NlattrFits (skb : SkBuff) (vm : Vm) (nest : Prop) : Prop :=
  (nest → vm.a.toNat + 2 ≤ skb.len.toNat ∧
      (skb.nlaLen vm.a.toNat < 8 ∨ vm.a.toNat + skb.nlaLen vm.a.toNat ≤ skb.len.toNat)) ∧
    (¬ nest → skb.len.toNat < 4 → (skb.len - vm.a).toInt < 4)

/-- A part in which a header can be ends in the message. -/
theorem NlattrFits.part_inside {nest : Prop} [Decidable nest] (h : NlattrFits skb vm nest)
    (hout : ¬ OutOfMessage skb vm) : 0 ≤ (nlattrPart skb vm nest).1 ∧
      (4 ≤ (nlattrPart skb vm nest).2 →
        (nlattrPart skb vm nest).1 + (nlattrPart skb vm nest).2 ≤ skb.len.toNat) := by
  unfold nlattrPart
  split_ifs with hnest
  · have := h.1 hnest
    exact ⟨by omega, by omega⟩
  · refine ⟨Int.natCast_nonneg _, fun hrem => ?_⟩
    have hlen : 4 ≤ skb.len.toNat := by
      by_contra hlt
      have := h.2 hnest (not_le.mp hlt)
      omega
    have hle := le_len_of_not_lt hlen fun h => hout (.inr h)
    have hint := toInt_le_toNat (skb.len - vm.a)
    rw [BitVec.toNat_sub_of_le (show vm.a.toNat ≤ skb.len.toNat by omega)] at hint
    omega

theorem found_or_zero {nla : Option ℤ} (h : ∀ pos ∈ nla, skb.HasAttribute pos) :
    BitVec.ofInt 32 (nla.getD 0) = 0 ∨
      ∃ pos, BitVec.ofInt 32 (nla.getD 0) = BitVec.ofInt 32 pos ∧ skb.HasAttribute pos := by
  cases nla with
  | none => exact .inl rfl
  | some pos => exact .inr ⟨pos, rfl, h pos rfl⟩

theorem execInsn_ancillary {size : ℕ} (hload : packetLoad vm fentry = some (k, size))
    (hmsh : decode fentry.code ≠ some .ldxMsh) (hneg : k < 0) (hoff : skfAdOff ≤ k)
    (skb : SkBuff) : execInsn skb vm fentry = ancillary skb vm k := by
  have hptr (size : ℕ) : skb.loadPointer k size = none := by
    simp [loadPointer, hoff, not_le.mpr hneg]
  unfold packetLoad at hload
  unfold execInsn load
  split at hload
  iterate 2
    next s hdecode =>
      cases hload
      simp only [hdecode, hptr]
  next hdecode => exact absurd hdecode hmsh
  next => cases hload

/-- The memory with the header of an attribute written to it. -/
def putHeader (memory : ℤ → BitVec 8) (pos : ℤ) (len type : ℕ) : ℤ → BitVec 8 := fun p =>
  if p = pos then BitVec.ofNat 8 len else if p = pos + 1 then BitVec.ofNat 8 (len / 256)
  else if p = pos + 2 then BitVec.ofNat 8 type else if p = pos + 3 then BitVec.ofNat 8 (type / 256)
  else memory p

theorem nlaLen_putHeader (memory : ℤ → BitVec 8) (pos : ℤ) {len : ℕ} (type : ℕ)
    (hlen : len < 2 ^ 16) : (skb.withMemory (putHeader memory pos len type)).nlaLen pos = len := by
  simp [nlaLen, withMemory, putHeader]
  omega

theorem nlaType_putHeader (memory : ℤ → BitVec 8) (pos : ℤ) (len : ℕ) {type : ℕ}
    (htype : type < 2 ^ 14) :
    (skb.withMemory (putHeader memory pos len type)).nlaType pos = type := by
  simp [nlaType, withMemory, putHeader]
  omega

/-- A header of the type that is searched is found where the search starts. -/
theorem nlaFind_putHeader (skb : SkBuff) (pos rem : ℤ) {len type : ℕ}
    (hlen : len < 2 ^ 16) (hfour : 4 ≤ len) (hrem : len ≤ rem) (htype : type < 2 ^ 14) :
    (skb.withMemory (putHeader skb.memory pos len type)).nlaFind type rem.toNat pos rem =
      some pos := by
  obtain ⟨fuel, hfuel⟩ : ∃ fuel, rem.toNat = fuel + 1 := ⟨rem.toNat - 1, by omega⟩
  rw [hfuel, nlaFind, nlaLen_putHeader _ pos type hlen, nlaType_putHeader _ pos len htype,
    if_pos ⟨by omega, hfour, hrem⟩, if_pos rfl]

/-- The load of an attribute nested in another. -/
def nestedLoad : SockFilter := ⟨(Opcode.ldAbs .w).code, 0, 0, BitVec.ofInt 32 (skfAdOff + 16)⟩

/-- The filter that looks for an attribute of type 1 in the attribute at offset 0. -/
def findNested : List SockFilter := [⟨ldxImm.code, 0, 0, 1⟩, nestedLoad, ⟨retA.code, 0, 0, 0⟩]

/-- A message with the header of an attribute of twelve bytes, and an attribute of type 1 behind
it. -/
def message (len : BitVec 32) : SkBuff :=
  { emptyPacket with
    len := len
    memory := fun pos => if pos = 0 then 12 else if pos = 4 then 4 else if pos = 6 then 1 else 0 }

/-- An accepted filter finds an attribute behind the end of a message of four bytes. -/
theorem nested_attribute_past_end : skChkFilter findNested = 0 ∧ (message 4).nonlinear = false ∧
      skRunFilter findNested (message 4) (fun _ => 0) 3 = some (.returned 4) ∧
      ¬ (message 4).HasAttribute 4 :=
  ⟨by decide +kernel, rfl, by decide +kernel, fun h => absurd h.2.2 (by decide)⟩

/-- A step reads the message only, and gives the offset of an attribute in it or zero. -/
structure StaysInside (skb : SkBuff) (vm : Vm) (fentry : SockFilter) (nest : Prop) : Prop where
  /-- The length of the attribute at `A`, which the nested step reads itself -/
  length : nest → ¬ OutOfMessage skb vm → vm.a.toNat + 2 ≤ skb.len.toNat
  /-- What it does depends on the message only. -/
  same : ∀ memory, skb.SameMessage memory →
    execInsn (skb.withMemory memory) vm fentry = execInsn skb vm fentry
  found : ∀ vm', execInsn skb vm fentry = .ok vm' → vm'.a = 0 ∨
    ∃ pos, vm'.a = BitVec.ofInt 32 pos ∧ skb.HasAttribute pos

theorem NlattrFits.staysInside (hexec : ∀ skb, execInsn skb vm fentry = ancillary skb vm k)
    (hk : k - skfAdOff = 12 ∨ k - skfAdOff = 16)
    (h : OutOfMessage skb vm ∨ NlattrFits skb vm (k - skfAdOff = 16)) :
    StaysInside skb vm fentry (k - skfAdOff = 16) := by
  by_cases hout : OutOfMessage skb vm
  · have hdrop (memory : ℤ → BitVec 8) : execInsn (skb.withMemory memory) vm fentry =
        .error .dropped := by
      rw [hexec, ancillary_nlattr _ vm hk]
      exact if_pos (.inl hout)
    have hdrop' : execInsn skb vm fentry = _ := hdrop skb.memory
    exact ⟨fun _ hin => absurd hout hin, fun memory _ => (hdrop memory).trans hdrop'.symm,
      fun vm' h => by rw [hdrop'] at h; cases h⟩
  have hfits := h.resolve_left hout
  obtain ⟨hpos, hend⟩ := hfits.part_inside hout
  refine ⟨fun hnest _ => (hfits.1 hnest).1, fun memory hsame => ?_, fun vm' h => ?_⟩
  · have hnla (hnest : k - skfAdOff = 16) :=
      hsame.nlaLen (Int.natCast_nonneg vm.a.toNat) (by have := (hfits.1 hnest).1; omega)
    have hpart : nlattrPart (skb.withMemory memory) vm (k - skfAdOff = 16) =
        nlattrPart skb vm (k - skfAdOff = 16) := by
      unfold nlattrPart
      split_ifs with hnest
      · rw [hnla hnest]
      · rfl
    rw [hexec, hexec, ancillary_nlattr _ vm hk, ancillary_nlattr _ vm hk, hpart]
    dsimp only
    rw [(hsame.nlaFind hpos hend).1]
    refine if_congr (or_congr Iff.rfl (and_congr_right fun hnest => ?_)) rfl rfl
    rw [hnla hnest]
    rfl
  · rw [hexec, ancillary_nlattr _ vm hk] at h
    split_ifs at h
    cases h
    exact found_or_zero (SameMessage.nlaFind (fun _ _ _ => rfl) hpos hend).2

/-- Where the nested step reads the length of an attribute that is too long, a header nested in it
is found, and the attribute there does not end in the message. -/
theorem not_staysInside_nested (hexec : ∀ skb, execInsn skb vm fentry = ancillary skb vm k)
    (hk : k - skfAdOff = 16) (hout : ¬ OutOfMessage skb vm) {type : ℕ}
    (hx : vm.x.toInt = type) (htype : type < 2 ^ 14) (hle : vm.a.toNat + 2 ≤ skb.len.toNat)
    (hlong : 8 ≤ skb.nlaLen vm.a.toNat)
    (hend : skb.len.toNat < vm.a.toNat + skb.nlaLen vm.a.toNat) :
    ∃ memory, (skb.withMemory memory).nlaLen vm.a.toNat = skb.nlaLen vm.a.toNat ∧
      ¬ StaysInside (skb.withMemory memory) vm fentry (k - skfAdOff = 16) := by
  have hlen := skb.len.isLt
  have hshort : skb.nlaLen vm.a.toNat < 2 ^ 16 := by
    unfold nlaLen
    omega
  generalize hn : skb.nlaLen vm.a.toNat = n at *
  let memory := putHeader skb.memory (vm.a.toNat + 4) (n - 4) type
  have hsame : (skb.withMemory memory).nlaLen vm.a.toNat = n := by
    rw [← hn]
    simp only [nlaLen, withMemory, memory, putHeader]
    rw [if_neg (by omega), if_neg (by omega), if_neg (by omega), if_neg (by omega),
      if_neg (by omega), if_neg (by omega), if_neg (by omega), if_neg (by omega)]
  have hsub : (vm.a - skb.len).toNat = 2 ^ 32 - (skb.len.toNat - vm.a.toNat) := by
    rw [BitVec.toNat_sub]
    omega
  have hfour : vm.a.toNat + 4 < 2 ^ 32 := by
    by_cases h4 : 4 ≤ skb.len.toNat
    · have := le_len_of_not_lt h4 fun h => hout (.inr h)
      omega
    · omega
  have hok : execInsn (skb.withMemory memory) vm fentry =
      .ok { vm with a := BitVec.ofInt 32 (vm.a.toNat + 4) } := by
    have hfind := nlaFind_putHeader skb (vm.a.toNat + 4) (n - 4) (by omega)
      (by omega : 4 ≤ n - 4) (by omega) htype
    rw [hexec, ancillary_nlattr _ vm (.inr hk), if_neg, nlattrPart, if_pos hk, hsame, hx]
    · dsimp only
      rw [hfind]
      rfl
    · rintro (h | ⟨-, h⟩)
      · exact hout h
      · have hlt : (vm.a - skb.len).toNat < n % 2 ^ 32 := by
          rw [hsame] at h
          exact h
        omega
  refine ⟨memory, hsame, fun h => ?_⟩
  rcases h.found _ hok with h0 | ⟨pos, heq, hpos, -, hin⟩
  · have := congrArg BitVec.toNat h0
    simp [BitVec.toNat_ofInt] at this
    omega
  · have hlt : pos < 2 ^ 32 := by
      change pos + _ ≤ (skb.len.toNat : ℤ) at hin
      omega
    have := congrArg BitVec.toNat heq
    simp [BitVec.toNat_ofInt] at this
    obtain rfl : pos = vm.a.toNat + 4 := by omega
    rw [nlaLen_putHeader _ _ _ (by omega)] at hin
    change (vm.a.toNat + 4 : ℤ) + _ ≤ skb.len.toNat at hin
    omega

/-- Where the bound of `SKF_AD_NLATTR` has wrapped, a header behind the end is found. -/
theorem not_staysInside_short (hexec : ∀ skb, execInsn skb vm fentry = ancillary skb vm k)
    (hk : k - skfAdOff = 12) (hout : ¬ OutOfMessage skb vm) {type : ℕ}
    (hx : vm.x.toInt = type) (htype : type < 2 ^ 14) (hshort : skb.len.toNat < 4)
    (hrem : 4 ≤ (skb.len - vm.a).toInt) :
    ∃ memory, ¬ StaysInside (skb.withMemory memory) vm fentry (k - skfAdOff = 16) := by
  refine ⟨putHeader skb.memory vm.a.toNat 4 type, fun h => ?_⟩
  have hok : execInsn (skb.withMemory (putHeader skb.memory vm.a.toNat 4 type)) vm fentry =
      .ok { vm with a := BitVec.ofInt 32 vm.a.toNat } := by
    have hfind := nlaFind_putHeader skb vm.a.toNat (skb.len - vm.a).toInt (by decide)
      (le_refl 4) (by omega) htype
    have hnest : k - skfAdOff ≠ 16 := by omega
    rw [hexec, ancillary_nlattr _ vm (.inl hk), if_neg, nlattrPart, if_neg hnest, hx]
    · dsimp only
      rw [show (skb.withMemory (putHeader skb.memory vm.a.toNat 4 type)).len = skb.len from rfl,
        hfind]
      rfl
    · rintro (h | ⟨h, -⟩)
      · exact hout h
      · exact hnest h
  rcases h.found _ hok with h0 | ⟨pos, -, hpos, hfour, hin⟩
  · have hle := toInt_le_toNat (skb.len - vm.a)
    have hzero : vm.a = 0 := by simpa using h0
    rw [hzero, show skb.len - 0 = skb.len from BitVec.sub_zero _] at hle hrem
    omega
  · change pos + _ ≤ (skb.len.toNat : ℤ) at hin
    omega

/-- For all memory with a given length of the attribute at `A`, the two loads of netlink attributes
read the message only and give the offset of an attribute in it or zero, if they return at once or
the message has room for what they read; and if `X` is a type of attributes, only if so. -/
theorem nlattr_loads_inside (skb : SkBuff) (vm : Vm) (fentry : SockFilter) (k : ℤ) (size : ℕ)
    (hload : packetLoad vm fentry = some (k, size)) (hmsh : decode fentry.code ≠ some .ldxMsh)
    (hk : k - skfAdOff = 12 ∨ k - skfAdOff = 16) :
    let fits := OutOfMessage skb vm ∨ NlattrFits skb vm (k - skfAdOff = 16)
    let inside := ∀ memory, (k - skfAdOff = 16 →
      (skb.withMemory memory).nlaLen vm.a.toNat = skb.nlaLen vm.a.toNat) →
        StaysInside (skb.withMemory memory) vm fentry (k - skfAdOff = 16)
    (fits → inside) ∧ (0 ≤ vm.x.toInt → vm.x.toInt < 2 ^ 14 → (inside ↔ fits)) := by
  intro fits inside
  have hoff : skfAdOff = -0x1000 := rfl
  have hexec := execInsn_ancillary hload hmsh (by omega) (by omega)
  have hfits : fits → inside := by
    intro h memory hsame
    refine NlattrFits.staysInside hexec hk (h.imp_right fun hfits => ⟨fun hnest => ?_, hfits.2⟩)
    rw [hsame hnest]
    exact hfits.1 hnest
  refine ⟨hfits, fun hx htype => ⟨fun h => ?_, hfits⟩⟩
  by_cases hout : OutOfMessage skb vm
  · exact .inl hout
  have htype' : vm.x.toInt = (vm.x.toInt.toNat : ℤ) := by omega
  refine .inr ⟨fun hnest => ?_, fun hnest hshort => ?_⟩
  · have hle := (h skb.memory fun _ => rfl).length hnest hout
    refine ⟨hle, ?_⟩
    by_contra hlong
    obtain ⟨memory, hsame, hnot⟩ := not_staysInside_nested hexec hnest hout htype' (by omega) hle
      (by omega) (by omega)
    exact hnot (h memory fun _ => hsame)
  · by_contra hrem
    obtain ⟨memory, hnot⟩ := not_staysInside_short hexec (by omega) hout htype' (by omega) hshort
      (by omega)
    exact hnot (h memory fun hnest' => absurd hnest' hnest)

/-- In a message of twelve bytes the nested attribute is found, whatever is behind the message. -/
theorem nlattr_loads_inside_twelve :
    (execInsn (message 12) ⟨1, 0, 1, fun _ => 0⟩ nestedLoad).toOption.map Vm.a = some 4 ∧
      ∀ memory, ((message 12).withMemory memory).nlaLen 0 = (message 12).nlaLen 0 →
        StaysInside ((message 12).withMemory memory) ⟨1, 0, 1, fun _ => 0⟩ nestedLoad True := by
  refine ⟨by decide +kernel, fun memory hsame => ?_⟩
  have hinside := (nlattr_loads_inside (message 12) ⟨1, 0, 1, fun _ => 0⟩ nestedLoad
    (skfAdOff + 16) 4 (by decide +kernel) (by decide +kernel) (by decide)).1
    (.inr ⟨fun _ => by decide +kernel, fun h => absurd (by decide) h⟩) memory fun _ => hsame
  simpa using hinside

end Nlattr

end AndroidKernel.Filter
