import Mathlib.Data.Nat.Digits.Defs
import Mathlib.Tactic.IntervalCases
import Nachos.Foundations.DoubleWord
import Nachos.Machine.Mmu

/-!
# User memory as an array of bytes

The accesses `ReadMem` and `WriteMem` of `translate.cc` on a host of either byte order. The host
reads and writes an `unsigned int` or an `unsigned short` in its own order, and `WordToHost` and
`ShortToHost` swap the bytes if `HOST_IS_BIG_ENDIAN`. So both orders give the accesses of
`Machine`, in which the lowest byte comes first.

If the page table has no frame twice, then the memory of a user program is one array of bytes at
virtual addresses (`Machine.userMemory`), and the accesses of all widths are loads and stores of
this array.

## Main definitions

* `ByteOrder` with `wordToHost` and `shortToHost`.
* `Machine.hostReadMem`, `Machine.hostWriteMem`: the accesses on a host.
* `Machine.userMemory`: the bytes at virtual addresses.

## Main results

* `Machine.hostReadMem_eq`, `Machine.hostWriteMem_eq`: the accesses do not depend on the order.
* `Machine.readMem_of_writeMem`: what is read after a write.
-/

namespace Nachos

open Foundations

/-- The byte order of the host, which is big if `HOST_IS_BIG_ENDIAN`. -/
inductive ByteOrder
  | little
  | big
  deriving DecidableEq

namespace ByteOrder

/-- `WordToHost`, by which `WordToMachine` is defined. -/
def wordToHost : ByteOrder → Word → Word
  | .little, word => word
  | .big, word =>
    (word >>> 24 &&& 0x000000ff) ||| (word >>> 8 &&& 0x0000ff00) ||| (word <<< 8 &&& 0x00ff0000) |||
      (word <<< 24 &&& 0xff000000)

/-- `ShortToHost`, by which `ShortToMachine` is defined. -/
def shortToHost : ByteOrder → BitVec 16 → BitVec 16
  | .little, shortword => shortword
  | .big, shortword => (shortword <<< 8 &&& 0xff00) ||| (shortword >>> 8 &&& 0x00ff)

/-- `*(unsigned int *) &mainMemory[physicalAddress]`. -/
def loadWord : ByteOrder → MainMemory → ℕ → Word
  | .little, mem, a => mem (a + 3) ++ mem (a + 2) ++ mem (a + 1) ++ mem a
  | .big, mem, a => mem a ++ mem (a + 1) ++ mem (a + 2) ++ mem (a + 3)

/-- `*(unsigned short *) &mainMemory[physicalAddress]`. -/
def loadShort : ByteOrder → MainMemory → ℕ → BitVec 16
  | .little, mem, a => mem (a + 1) ++ mem a
  | .big, mem, a => mem a ++ mem (a + 1)

/-- The bytes of an `unsigned int`. -/
def wordBytes : ByteOrder → Word → List (BitVec 8)
  | .little, word =>
    [word.extractLsb' 0 8, word.extractLsb' 8 8, word.extractLsb' 16 8, word.extractLsb' 24 8]
  | .big, word =>
    [word.extractLsb' 24 8, word.extractLsb' 16 8, word.extractLsb' 8 8, word.extractLsb' 0 8]

/-- The bytes of an `unsigned short`. -/
def shortBytes : ByteOrder → BitVec 16 → List (BitVec 8)
  | .little, shortword => [shortword.extractLsb' 0 8, shortword.extractLsb' 8 8]
  | .big, shortword => [shortword.extractLsb' 8 8, shortword.extractLsb' 0 8]

end ByteOrder

namespace Machine

/-- `Machine::ReadMem`, on a host. -/
def hostReadMem (order : ByteOrder) (addr : Word) (size : AccessSize) : Cpu Word := do
  let physicalAddress ← access addr size false
  Computation.read fun m =>
    match size with
    | .one => (m.mainMemory physicalAddress).signExtend 32
    | .two => (order.shortToHost (order.loadShort m.mainMemory physicalAddress)).zeroExtend 32
    | .four => order.wordToHost (order.loadWord m.mainMemory physicalAddress)

/-- `Machine::WriteMem`, on a host. -/
def hostWriteMem (order : ByteOrder) (addr : Word) (size : AccessSize) (value : Word) :
    Cpu Unit := do
  let physicalAddress ← access addr size true
  Computation.write fun m =>
    { m with mainMemory := m.mainMemory.store physicalAddress (
        match size with
        | .one => [(value &&& 0xff).setWidth 8]
        | .two => order.shortBytes (order.shortToHost ((value &&& 0xffff).setWidth 16))
        | .four => order.wordBytes (order.wordToHost value)) }

/-- The bytes at virtual addresses, of which the valid bits are left aside. -/
def userMemory (m : Machine) : MainMemory := fun a =>
  match m.pageTable[a / pageSize]? with
  | some entry => m.mainMemory (entry.physicalPage * pageSize + a % pageSize)
  | none => 0

/-- The bytes at virtual addresses as numbers, of which those of an access are the low-order bytes
of a value. -/
def replaced (mem : MainMemory) (addr : Word) (size : AccessSize) (value : Word) (a : ℕ) : ℕ :=
  if addr.toNat ≤ a ∧ a < addr.toNat + size.width then value.toNat / 256 ^ (a - addr.toNat) % 256
  else (mem a).toNat

end Machine

/-! ### Both orders -/

namespace ByteOrder

theorem wordToHost_big_append (a b c d : BitVec 8) :
    wordToHost .big (a ++ b ++ c ++ d : BitVec 32) = (d ++ c ++ b ++ a : BitVec 32) := by
  refine BitVec.eq_of_getLsbD_eq fun i hi => ?_
  simp only [wordToHost, BitVec.getLsbD_or, BitVec.getLsbD_and, BitVec.getLsbD_shiftLeft,
    BitVec.getLsbD_ushiftRight, BitVec.getLsbD_append]
  interval_cases i <;> simp

theorem shortToHost_big_append (a b : BitVec 8) :
    shortToHost .big (a ++ b : BitVec 16) = (b ++ a : BitVec 16) := by
  refine BitVec.eq_of_getLsbD_eq fun i hi => ?_
  simp only [shortToHost, BitVec.getLsbD_or, BitVec.getLsbD_and, BitVec.getLsbD_shiftLeft,
    BitVec.getLsbD_ushiftRight, BitVec.getLsbD_append]
  interval_cases i <;> simp

/-- What is loaded has the lowest byte first. -/
theorem wordToHost_loadWord (order : ByteOrder) (mem : MainMemory) (a : ℕ) :
    order.wordToHost (order.loadWord mem a) = Machine.loadBytes mem a .four := by
  cases order with
  | little => rfl
  | big => exact wordToHost_big_append ..

theorem shortToHost_loadShort (order : ByteOrder) (mem : MainMemory) (a : ℕ) :
    order.shortToHost (order.loadShort mem a) = mem (a + 1) ++ mem a := by
  cases order with
  | little => rfl
  | big => exact shortToHost_big_append ..

/-- What is stored has the lowest byte first. -/
theorem wordBytes_wordToHost (order : ByteOrder) (value : Word) :
    order.wordBytes (order.wordToHost value) = Machine.bytes value .four := by
  cases order with
  | little => rfl
  | big =>
    simp only [wordBytes, wordToHost, Machine.bytes, List.cons.injEq, and_true]
    refine ⟨?_, ?_, ?_, ?_⟩
    all_goals
      refine BitVec.eq_of_getLsbD_eq fun i hi => ?_
      simp only [BitVec.getLsbD_extractLsb', BitVec.getLsbD_or, BitVec.getLsbD_and,
        BitVec.getLsbD_shiftLeft, BitVec.getLsbD_ushiftRight]
      interval_cases i <;> simp

theorem shortBytes_shortToHost (order : ByteOrder) (value : Word) :
    order.shortBytes (order.shortToHost ((value &&& 0xffff).setWidth 16)) =
      Machine.bytes value .two := by
  cases order
  all_goals
    simp only [shortBytes, shortToHost, Machine.bytes, List.cons.injEq, and_true]
    refine ⟨?_, ?_⟩
  all_goals
    refine BitVec.eq_of_getLsbD_eq fun i hi => ?_
    simp only [BitVec.getLsbD_extractLsb', BitVec.getLsbD_or, BitVec.getLsbD_and,
      BitVec.getLsbD_shiftLeft, BitVec.getLsbD_ushiftRight, BitVec.getLsbD_setWidth]
    interval_cases i <;> simp

end ByteOrder

namespace Machine

theorem hostReadMem_eq (order : ByteOrder) : hostReadMem order = readMem := by
  funext addr size
  cases size with
  | one => rfl
  | two => simp only [hostReadMem, readMem, order.shortToHost_loadShort, loadBytes]
  | four => simp only [hostReadMem, readMem, order.wordToHost_loadWord]

theorem hostWriteMem_eq (order : ByteOrder) : hostWriteMem order = writeMem := by
  funext addr size value
  cases size with
  | one =>
    have hbyte : (value &&& 0xff).setWidth 8 = value.extractLsb' 0 8 := by
      refine BitVec.eq_of_getLsbD_eq fun i hi => ?_
      simp only [BitVec.getLsbD_extractLsb', BitVec.getLsbD_setWidth, BitVec.getLsbD_and]
      interval_cases i <;> simp
    simp only [hostWriteMem, writeMem, bytes, hbyte]
  | two => simp only [hostWriteMem, writeMem, order.shortBytes_shortToHost]
  | four => simp only [hostWriteMem, writeMem, order.wordBytes_wordToHost]

/-! ### The array of bytes -/

section

variable {m m' : Machine} {addr value : Word} {size : AccessSize} {writing : Bool}
  {physAddr : ℕ}

theorem exists_of_access (h : (access addr size writing).outcome m = (.ok physAddr, m')) :
    ∃ pt, translate m.pageTable addr size writing = .ok (physAddr, pt) ∧
      m' = { m with pageTable := pt } := by
  rcases ht : translate m.pageTable addr size writing with which | ⟨a, pt⟩
  · cases (outcome_access_of_error ht).symm.trans h
  · cases (outcome_access_of_ok ht).symm.trans h
    exact ⟨pt, rfl, rfl⟩

/-- The array does not depend on the bits `use` and `dirty`. -/
theorem userMemory_congr (hpt : TableBelow m.pageTable m'.pageTable)
    (hmem : m'.mainMemory = m.mainMemory) : m'.userMemory = m.userMemory := by
  funext a
  rw [userMemory, userMemory, hmem]
  rcases he : m.pageTable[a / pageSize]? with _ | e
  · rw [hpt.getElem?_eq_none he]
  · obtain ⟨f, hf, hef⟩ := hpt.exists_getElem? he
    rw [hf]
    simp only [hef.physicalPage]

/-- All bytes of an access are in the frame of their page. -/
theorem userMemory_of_translate {pt : List TranslationEntry}
    (h : translate m.pageTable addr size writing = .ok (physAddr, pt)) {i : ℕ}
    (hi : i < size.width) : m.userMemory (addr.toNat + i) = m.mainMemory (physAddr + i) := by
  obtain ⟨haligned, e, e', he, hcheck, rfl, -⟩ := translate_eq_ok.1 h
  obtain ⟨-, -, -, rfl⟩ := TranslationEntry.check_eq_ok.1 hcheck
  have hle := haligned.offset_le
  have hdiv : (addr.toNat + i) / pageSize = addr.toNat / pageSize := by
    simp only [pageSize] at hle ⊢
    omega
  have hmod : (addr.toNat + i) % pageSize = addr.toNat % pageSize + i := by
    simp only [pageSize] at hle ⊢
    omega
  rw [userMemory, hdiv, he, hmod, Nat.add_assoc]

theorem loadBytes_congr {mem mem' : MainMemory} {a a' : ℕ}
    (h : ∀ i < size.width, mem (a + i) = mem' (a' + i)) :
    loadBytes mem a size = loadBytes mem' a' size := by
  cases size with
  | one => simpa [loadBytes] using congrArg (BitVec.signExtend 32) (h 0 (by decide))
  | two =>
    have h₀ := h 0 (by decide)
    have h₁ := h 1 (by decide)
    rw [Nat.add_zero, Nat.add_zero] at h₀
    rw [loadBytes, loadBytes, h₀, h₁]
  | four =>
    have h₀ := h 0 (by decide)
    have h₁ := h 1 (by decide)
    have h₂ := h 2 (by decide)
    have h₃ := h 3 (by decide)
    rw [Nat.add_zero, Nat.add_zero] at h₀
    rw [loadBytes, loadBytes, h₀, h₁, h₂, h₃]

/-- A read loads from the array, which stays the same. -/
theorem userMemory_of_readMem (h : (readMem addr size).outcome m = (.ok value, m')) :
    value = loadBytes m.userMemory addr.toNat size ∧ m'.userMemory = m.userMemory := by
  obtain ⟨physAddr, m₁, haccess, hread⟩ := Computation.exists_of_outcome_bind h
  obtain ⟨pt, ht, rfl⟩ := exists_of_access haccess
  cases hread
  exact ⟨loadBytes_congr fun i hi => (userMemory_of_translate ht hi).symm,
    userMemory_congr (translate_below ht) rfl⟩

theorem length_bytes_eq (value : Word) (size : AccessSize) :
    (bytes value size).length = size.width := by
  cases size <;> rfl

/-- The bytes in other frames are not those of the access. -/
theorem userMemory_store {pt : List TranslationEntry}
    (hframes : (m.pageTable.map (·.physicalPage)).Nodup)
    (h : translate m.pageTable addr size writing = .ok (physAddr, pt)) (value : Word) :
    userMemory { m with mainMemory := m.mainMemory.store physAddr (bytes value size) } =
      m.userMemory.store addr.toNat (bytes value size) := by
  obtain ⟨haligned, e, e', he, hcheck, rfl, -⟩ := translate_eq_ok.1 h
  obtain ⟨-, -, -, rfl⟩ := TranslationEntry.check_eq_ok.1 hcheck
  have hle := haligned.offset_le
  have hlen := length_bytes_eq value size
  funext a
  by_cases hpage : a / pageSize = addr.toNat / pageSize
  · have hstart : addr.toNat ≤ a ↔ addr.toNat % pageSize ≤ a % pageSize := by
      simp only [pageSize] at hpage ⊢
      omega
    have hend : a < addr.toNat + size.width ↔
        a % pageSize < addr.toNat % pageSize + size.width := by
      simp only [pageSize] at hpage hle ⊢
      omega
    have hsub : e.physicalPage * pageSize + a % pageSize -
        (e.physicalPage * pageSize + addr.toNat % pageSize) = a - addr.toNat := by
      simp only [pageSize] at hpage ⊢
      omega
    simp only [userMemory, MainMemory.store, hpage, he, hlen, hsub, hstart, hend, Nat.add_assoc,
      Nat.add_le_add_iff_left, Nat.add_lt_add_iff_left]
  · have hout : ¬(addr.toNat ≤ a ∧ a < addr.toNat + size.width) := by
      simp only [pageSize] at hpage hle ⊢
      omega
    rw [MainMemory.store, hlen, if_neg hout, userMemory, userMemory]
    rcases hf : m.pageTable[a / pageSize]? with _ | f
    · rfl
    · have hne : f.physicalPage ≠ e.physicalPage := fun heq => by
        have hi := (List.getElem?_eq_some_iff.1 hf).1
        refine hpage ((List.getElem?_inj (by simpa using hi) hframes).1 ?_)
        simp only [List.getElem?_map, he, hf, Option.map_some, heq]
      refine if_neg ?_
      simp only [pageSize, hlen] at hne hle ⊢
      omega

/-- A write stores into the array. -/
theorem userMemory_of_writeMem (hframes : (m.pageTable.map (·.physicalPage)).Nodup)
    (h : (writeMem addr size value).outcome m = (.ok (), m')) :
    m'.userMemory = m.userMemory.store addr.toNat (bytes value size) := by
  obtain ⟨physAddr, m₁, haccess, hwrite⟩ := Computation.exists_of_outcome_bind h
  obtain ⟨pt, ht, rfl⟩ := exists_of_access haccess
  cases hwrite
  rw [← userMemory_store hframes ht value]
  exact userMemory_congr (translate_below ht) rfl

/-- The word that is loaded, modulo the size of the access, is made of its bytes. -/
theorem loadBytes_mod (mem : MainMemory) (a : ℕ) (size : AccessSize) :
    (loadBytes mem a size).toNat % 2 ^ (8 * size.width) =
      Nat.ofDigits 256 ((List.range size.width).map fun i => (mem (a + i)).toNat) := by
  cases size with
  | one =>
    have hbyte : ((mem a).signExtend 32).setWidth 8 = mem a := by
      ext i hi
      simp [BitVec.getElem_signExtend, hi, hi.trans (by decide : 8 < 32)]
    have hmod := congrArg BitVec.toNat hbyte
    rw [BitVec.toNat_setWidth] at hmod
    exact hmod.trans (Nat.add_zero _).symm
  | two =>
    have h₀ := (mem a).isLt
    have h₁ := (mem (a + 1)).isLt
    change ((mem (a + 1) ++ mem a).setWidth 32).toNat % 2 ^ 16 =
      (mem a).toNat + 256 * ((mem (a + 1)).toNat + 256 * 0)
    rw [BitVec.toNat_setWidth, toNat_append_eq]
    omega
  | four =>
    have h₀ := (mem a).isLt
    have h₁ := (mem (a + 1)).isLt
    have h₂ := (mem (a + 2)).isLt
    have h₃ := (mem (a + 3)).isLt
    change (mem (a + 3) ++ mem (a + 2) ++ mem (a + 1) ++ mem a).toNat % 2 ^ 32 =
      (mem a).toNat + 256 * ((mem (a + 1)).toNat + 256 * ((mem (a + 2)).toNat +
        256 * ((mem (a + 3)).toNat + 256 * 0)))
    rw [toNat_append_eq, toNat_append_eq, toNat_append_eq]
    omega

/-- The bytes that are stored are the low-order bytes. -/
theorem toNat_getD_bytes (value : Word) {i : ℕ} (hi : i < size.width) :
    ((bytes value size).getD i 0).toNat = value.toNat / 256 ^ i % 256 := by
  have hbyte (i : ℕ) : (value.extractLsb' (8 * i) 8).toNat = value.toNat / 256 ^ i % 256 := by
    rw [BitVec.extractLsb'_toNat, Nat.shiftRight_eq_div_pow, Nat.pow_mul]
  cases size with
  | one =>
    obtain rfl : i = 0 := Nat.lt_one_iff.1 hi
    exact hbyte 0
  | two =>
    change i < 2 at hi
    interval_cases i
    · exact hbyte 0
    · exact hbyte 1
  | four =>
    change i < 4 at hi
    interval_cases i
    · exact hbyte 0
    · exact hbyte 1
    · exact hbyte 2
    · exact hbyte 3

theorem toNat_store_bytes (mem : MainMemory) (addr : Word) (size : AccessSize) (value : Word)
    (a : ℕ) :
    (mem.store addr.toNat (bytes value size) a).toNat = replaced mem addr size value a := by
  rw [MainMemory.store, replaced, length_bytes_eq]
  split_ifs with h
  · exact toNat_getD_bytes value (by omega)
  · rfl

end

/-- What is read after a write: the bytes of the write, and those that were there before. -/
theorem readMem_of_writeMem (order : ByteOrder) (m m₁ m₂ : Machine) (addr addr' : Word)
    (size size' : AccessSize) (value value' : Word)
    (hframes : (m.pageTable.map (·.physicalPage)).Nodup)
    (hwrite : (hostWriteMem order addr size value).outcome m = (.ok (), m₁))
    (hread : (hostReadMem order addr' size').outcome m₁ = (.ok value', m₂)) :
    value'.toNat % 2 ^ (8 * size'.width) =
      Nat.ofDigits 256 ((List.range size'.width).map fun i =>
        replaced m.userMemory addr size value (addr'.toNat + i)) := by
  rw [hostWriteMem_eq] at hwrite
  rw [hostReadMem_eq] at hread
  rw [(userMemory_of_readMem hread).1, userMemory_of_writeMem hframes hwrite, loadBytes_mod]
  simp only [toNat_store_bytes]

/-- On a host of the big order: the word `0x12345678` at address 4, of which the upper halfword is
read. -/
theorem readMem_of_writeMem_of_halfword :
    let m : Machine :=
      { registers := ⟨fun _ => 0, 0, 0, 0, 0, 0, 0, 0, 0⟩
        pageTable := [⟨0, 3, true, false, false, false⟩]
        mainMemory := fun _ => 0 }
    let m₁ := ((hostWriteMem .big 4 .four 0x12345678).outcome m).2
    (0x1234 : Word).toNat % 2 ^ (8 * AccessSize.two.width) =
      Nat.ofDigits 256 ((List.range AccessSize.two.width).map fun i =>
        replaced m.userMemory 4 .four 0x12345678 ((6 : Word).toNat + i)) ∧
      ((hostReadMem .big 6 .two).outcome m₁).1 = .ok 0x1234 :=
  ⟨readMem_of_writeMem .big _ _ _ 4 6 .four .two 0x12345678 0x1234 (by decide) rfl rfl, rfl⟩

end Machine

end Nachos
