import Nachos.Machine.Translate

/-!
# Page tables and translation lookaside buffers

`Machine::Translate` with its two structures, of which exactly one is installed: a page table,
which is indexed by the page number, or a TLB, which is searched for it. All numbers are those of
the source; a frame number is converted to `unsigned`, and the physical address is an `int` of which
an `ASSERT` says that it is in main memory.

A TLB behaves as a page table of the whole address space in which all other pages are not valid
(`Mmu.pages`). So `Machine`, which has a page table, is a machine with a TLB as well.

## Main definitions

* `RawEntry`, `Mmu`: the structures.
* `Mmu.translate`: `Machine::Translate`.
* `Mmu.pages`: the page table that a structure stands for.

## Main results

* `Mmu.translate_spec`: what is translated, and what is changed.
* `Mmu.translate_pages`: the translation is the one of the page table.
-/

namespace Nachos

open Foundations

/-- `TranslationEntry`, with the `int`s of the source. -/
structure RawEntry where
  virtualPage : Word
  physicalPage : Word
  valid : Bool
  readOnly : Bool
  use : Bool
  dirty : Bool
  deriving DecidableEq

/-- An entry of the model with page tables only. -/
def RawEntry.toEntry (entry : RawEntry) : TranslationEntry where
  virtualPage := entry.virtualPage.toNat
  physicalPage := entry.physicalPage.toNat
  valid := entry.valid
  readOnly := entry.readOnly
  use := entry.use
  dirty := entry.dirty

/-- The number of bytes. -/
def AccessSize.width : AccessSize → ℕ
  | .one => 1
  | .two => 2
  | .four => 4

/-- `tlb`, `pageTable` and `pageTableSize`, which is the length of the list. -/
structure Mmu where
  tlb : Option (List RawEntry)
  pageTable : Option (List RawEntry)

/-- An entry with the bits set. -/
def RawEntry.touch (entry : RawEntry) (writing : Bool) : RawEntry :=
  { entry with use := true, dirty := entry.dirty || writing }

/-- The checks that `Translate` makes of a valid entry, and the physical address. -/
def RawEntry.access (entry : RawEntry) (offset : Word) (size : AccessSize) (writing : Bool) :
    Except Fault (Except ExceptionType Word) :=
  if entry.readOnly = true ∧ writing = true then .ok (.error .readOnlyException)
  else if numPhysPages ≤ entry.physicalPage.toNat then .ok (.error .busErrorException)
  else
    let physAddr := entry.physicalPage * BitVec.ofNat 32 pageSize + offset
    if 0 ≤ physAddr.toInt ∧ physAddr.toInt + size.width ≤ memorySize then .ok (.ok physAddr)
    else .error .assertion

namespace Mmu

/-- Replace an entry of the structure that is installed. -/
def setEntry (mmu : Mmu) (i : ℕ) (entry : RawEntry) : Mmu where
  tlb := mmu.tlb.map fun table => table.set i entry
  pageTable := mmu.pageTable.map fun table => table.set i entry

/-- The end of `Translate`, with the `i`-th entry. -/
def translateBy (mmu : Mmu) (i : ℕ) (entry : RawEntry) (offset : Word) (size : AccessSize)
    (writing : Bool) : Except Fault (Except ExceptionType Word × Mmu) :=
  (entry.access offset size writing).map fun
    | .error which => (.error which, mmu)
    | .ok physAddr => (.ok physAddr, mmu.setEntry i (entry.touch writing))

/-- The search in the TLB, with the position that is found. -/
def search (vpn : Word) : List RawEntry → Option (ℕ × RawEntry)
  | [] => none
  | entry :: tlb =>
    if entry.valid = true ∧ entry.virtualPage = vpn then some (0, entry)
    else (search vpn tlb).map fun found => (found.1 + 1, found.2)

/-- `Machine::Translate`: an exception or the physical address, and the structures afterwards. -/
def translate (mmu : Mmu) (virtAddr : Word) (size : AccessSize) (writing : Bool) :
    Except Fault (Except ExceptionType Word × Mmu) :=
  if size.Aligned virtAddr then
    let vpn := virtAddr / BitVec.ofNat 32 pageSize
    let offset := virtAddr % BitVec.ofNat 32 pageSize
    match mmu.tlb, mmu.pageTable with
    | none, some table =>
      match table[vpn.toNat]? with
      | none => .ok (.error .addressErrorException, mmu)
      | some entry =>
        if entry.valid = false then .ok (.error .pageFaultException, mmu)
        else mmu.translateBy vpn.toNat entry offset size writing
    | some tlb, none =>
      match search vpn tlb with
      | none => .ok (.error .pageFaultException, mmu)
      | some (i, entry) => mmu.translateBy i entry offset size writing
    | _, _ => .error .assertion
  else .ok (.error .addressErrorException, mmu)

/-- The entry of the page table for a page, of which a TLB knows the first valid entry. -/
def pageOf (tlb : List RawEntry) (vpn : Word) : TranslationEntry :=
  match search vpn tlb with
  | none => ⟨0, 0, false, false, false, false⟩
  | some (_, entry) => entry.toEntry

/-- The page table that the structures stand for. That of a TLB has all pages of the address
space. -/
def pages (mmu : Mmu) : List TranslationEntry :=
  match mmu.tlb, mmu.pageTable with
  | some tlb, _ => (List.range (2 ^ 24)).map fun vpn => pageOf tlb (BitVec.ofNat 32 vpn)
  | none, some table => table.map RawEntry.toEntry
  | none, none => []

/-- Exactly one structure is installed. -/
def Installed (mmu : Mmu) : Prop := mmu.tlb.isSome ≠ mmu.pageTable.isSome

instance (mmu : Mmu) : Decidable mmu.Installed := by
  unfold Installed
  infer_instance

/-- The `i`-th entry of the structure that is installed maps a page. -/
structure Maps (mmu : Mmu) (vpn i : ℕ) (entry : RawEntry) : Prop where
  valid : entry.valid = true
  ofPageTable : ∀ table, mmu.pageTable = some table → i = vpn ∧ table[i]? = some entry
  ofTlb : ∀ tlb, mmu.tlb = some tlb → entry.virtualPage.toNat = vpn ∧ tlb[i]? = some entry

end Mmu

/-! ### Addresses -/

section

variable {virtAddr : Word} {size : AccessSize}

theorem AccessSize.Aligned.mod_eq_zero (h : size.Aligned virtAddr) :
    virtAddr.toNat % size.width = 0 := by
  cases size with
  | one => exact Nat.mod_one _
  | two => simpa [width, Nat.and_one_is_mod] using congrArg BitVec.toNat h
  | four => simpa [width, Nat.and_two_pow_sub_one_eq_mod _ 2] using congrArg BitVec.toNat h

/-- An access that is aligned does not leave its page. -/
theorem AccessSize.Aligned.offset_le (h : size.Aligned virtAddr) :
    virtAddr.toNat % pageSize + size.width ≤ pageSize := by
  have hmod := h.mod_eq_zero
  cases size <;> simp only [AccessSize.width, pageSize] at hmod ⊢ <;> omega

end

@[simp] theorem RawEntry.touch_valid (entry : RawEntry) (writing : Bool) :
    (entry.touch writing).valid = entry.valid :=
  rfl

@[simp] theorem RawEntry.touch_virtualPage (entry : RawEntry) (writing : Bool) :
    (entry.touch writing).virtualPage = entry.virtualPage :=
  rfl

/-- The physical address is computed without an overflow. -/
theorem RawEntry.access_eq (entry : RawEntry) {offset : Word} {size : AccessSize} (writing : Bool)
    (h : offset.toNat + size.width ≤ pageSize) :
    entry.access offset size writing = .ok (
      if entry.readOnly = true ∧ writing = true then .error .readOnlyException
      else if numPhysPages ≤ entry.physicalPage.toNat then .error .busErrorException
      else .ok (BitVec.ofNat 32 (entry.physicalPage.toNat * pageSize + offset.toNat))) := by
  unfold RawEntry.access
  split_ifs with hr hp
  · rfl
  · rfl
  · have hp : entry.physicalPage.toNat < numPhysPages := Nat.lt_of_not_le hp
    have hwidth : 0 < size.width := by cases size <;> decide
    have haddr : entry.physicalPage * BitVec.ofNat 32 pageSize + offset =
        BitVec.ofNat 32 (entry.physicalPage.toNat * pageSize + offset.toNat) := by
      rw [BitVec.ofNat_add, BitVec.ofNat_mul, BitVec.ofNat_toNat, BitVec.ofNat_toNat,
        BitVec.setWidth_eq, BitVec.setWidth_eq]
    have hint : (BitVec.ofNat 32 (entry.physicalPage.toNat * pageSize + offset.toNat)).toInt =
        ((entry.physicalPage.toNat * pageSize + offset.toNat : ℕ) : ℤ) := by
      rw [BitVec.toInt_ofNat']
      simp only [pageSize, numPhysPages] at h hp ⊢
      exact Int.bmod_eq_of_le (by omega) (by omega)
    simp only [haddr, hint]
    refine if_pos ⟨Int.natCast_nonneg _, ?_⟩
    simp only [pageSize, numPhysPages, memorySize] at h hp ⊢
    omega

namespace Mmu

variable {mmu mmu' : Mmu} {virtAddr offset physAddr vpn : Word} {size : AccessSize}
  {writing : Bool} {entry : RawEntry} {i : ℕ} {tlb : List RawEntry}

theorem mem_of_search (h : search vpn tlb = some (i, entry)) :
    tlb[i]? = some entry ∧ entry.valid = true ∧ entry.virtualPage = vpn := by
  induction tlb generalizing i with
  | nil => cases h
  | cons e tlb ih =>
    rw [search] at h
    split_ifs at h with he
    · cases h
      exact ⟨rfl, he⟩
    · obtain ⟨⟨j, e'⟩, hj, heq⟩ := Option.map_eq_some_iff.1 h
      cases heq
      exact ih hj

/-- What the end of `Translate` answers for a valid entry. -/
theorem translateBy_eq (mmu : Mmu) (i : ℕ) (entry : RawEntry) (writing : Bool)
    (h : offset.toNat + size.width ≤ pageSize) :
    mmu.translateBy i entry offset size writing = .ok (
      if entry.readOnly = true ∧ writing = true then (.error .readOnlyException, mmu)
      else if numPhysPages ≤ entry.physicalPage.toNat then (.error .busErrorException, mmu)
      else (.ok (BitVec.ofNat 32 (entry.physicalPage.toNat * pageSize + offset.toNat)),
        mmu.setEntry i (entry.touch writing))) := by
  rw [translateBy, entry.access_eq writing h]
  split_ifs <;> rfl

/-- A translation that succeeds: an entry maps the page and permits the access, the address is in
its frame, and the bits of this entry are set. -/
structure Translated (mmu : Mmu) (virtAddr : Word) (size : AccessSize) (writing : Bool)
    (physAddr : ℕ) (i : ℕ) (entry : RawEntry) (mmu' : Mmu) : Prop where
  aligned : size.Aligned virtAddr
  maps : mmu.Maps (virtAddr.toNat / pageSize) i entry
  writable : writing = true → entry.readOnly = false
  frame : entry.physicalPage.toNat < numPhysPages
  physAddr : physAddr = entry.physicalPage.toNat * pageSize + virtAddr.toNat % pageSize
  inFrame : virtAddr.toNat % pageSize + size.width ≤ pageSize
  touched : mmu' = mmu.setEntry i (entry.touch writing)

theorem translateBy_spec (haligned : size.Aligned virtAddr)
    (hmaps : mmu.Maps (virtAddr.toNat / pageSize) i entry) :
    (∃ which ≠ ExceptionType.noException,
      mmu.translateBy i entry (virtAddr % BitVec.ofNat 32 pageSize) size writing =
        .ok (.error which, mmu)) ∨
    ∃ physAddr mmu', mmu.translateBy i entry (virtAddr % BitVec.ofNat 32 pageSize) size writing =
      .ok (.ok physAddr, mmu') ∧
      mmu.Translated virtAddr size writing physAddr.toNat i entry mmu' := by
  have hoffset : (virtAddr % BitVec.ofNat 32 pageSize).toNat = virtAddr.toNat % pageSize := rfl
  have hle := haligned.offset_le
  rw [translateBy_eq _ _ _ _ (hoffset ▸ hle), hoffset]
  split_ifs with hr hp
  · exact .inl ⟨.readOnlyException, by decide, rfl⟩
  · exact .inl ⟨.busErrorException, by decide, rfl⟩
  · refine .inr ⟨_, _, rfl, haligned, hmaps, fun hw => ?_, Nat.lt_of_not_le hp, ?_, hle, rfl⟩
    · simpa [hw] using hr
    · rw [BitVec.toNat_ofNat]
      simp only [pageSize, numPhysPages] at hle hp ⊢
      omega

theorem translate_ofPageTable (table : List RawEntry) (writing : Bool)
    (h : size.Aligned virtAddr) :
    translate ⟨none, some table⟩ virtAddr size writing =
      match table[virtAddr.toNat / pageSize]? with
      | none => .ok (.error .addressErrorException, ⟨none, some table⟩)
      | some entry =>
        if entry.valid = false then .ok (.error .pageFaultException, ⟨none, some table⟩)
        else translateBy ⟨none, some table⟩ (virtAddr.toNat / pageSize) entry
          (virtAddr % BitVec.ofNat 32 pageSize) size writing :=
  if_pos h

theorem translate_ofTlb (tlb : List RawEntry) (writing : Bool) (h : size.Aligned virtAddr) :
    translate ⟨some tlb, none⟩ virtAddr size writing =
      match search (virtAddr / BitVec.ofNat 32 pageSize) tlb with
      | none => .ok (.error .pageFaultException, ⟨some tlb, none⟩)
      | some (i, entry) => translateBy ⟨some tlb, none⟩ i entry
          (virtAddr % BitVec.ofNat 32 pageSize) size writing :=
  if_pos h

/-- Every translation either changes nothing and answers an exception, or finds an entry that
permits it. No `ASSERT` fails. -/
theorem translate_cases (h : mmu.Installed) (virtAddr : Word) (size : AccessSize)
    (writing : Bool) :
    (∃ which ≠ ExceptionType.noException,
      mmu.translate virtAddr size writing = .ok (.error which, mmu)) ∨
    ∃ physAddr i entry mmu', mmu.translate virtAddr size writing = .ok (.ok physAddr, mmu') ∧
      mmu.Translated virtAddr size writing physAddr.toNat i entry mmu' := by
  by_cases ha : size.Aligned virtAddr
  · obtain ⟨_ | tlb, _ | table⟩ := mmu
    · exact absurd rfl h
    · rw [translate_ofPageTable table writing ha]
      rcases he : table[virtAddr.toNat / pageSize]? with _ | entry
      · exact .inl ⟨.addressErrorException, by decide, rfl⟩
      · dsimp only
        split_ifs with hv
        · exact .inl ⟨.pageFaultException, by decide, rfl⟩
        · have hmaps : Maps ⟨none, some table⟩ (virtAddr.toNat / pageSize)
              (virtAddr.toNat / pageSize) entry :=
            { valid := by simpa using hv
              ofPageTable := by rintro _ ⟨⟩; exact ⟨rfl, he⟩
              ofTlb := nofun }
          exact (translateBy_spec ha hmaps).imp_right fun ⟨physAddr, mmu', hok, hspec⟩ =>
            ⟨physAddr, _, entry, mmu', hok, hspec⟩
    · rw [translate_ofTlb tlb writing ha]
      rcases hs : search (virtAddr / BitVec.ofNat 32 pageSize) tlb with _ | ⟨i, entry⟩
      · exact .inl ⟨.pageFaultException, by decide, rfl⟩
      · obtain ⟨he, hv, hpage⟩ := mem_of_search hs
        have hmaps : Maps ⟨some tlb, none⟩ (virtAddr.toNat / pageSize) i entry :=
          { valid := hv
            ofPageTable := nofun
            ofTlb := by rintro _ ⟨⟩; exact ⟨by rw [hpage]; rfl, he⟩ }
        exact (translateBy_spec ha hmaps).imp_right fun ⟨physAddr, mmu', hok, hspec⟩ =>
          ⟨physAddr, i, entry, mmu', hok, hspec⟩
    · exact absurd rfl h
  · exact .inl ⟨.addressErrorException, by decide, if_neg ha⟩

/-! ### The page table of a structure -/

theorem search_set_self (h : search vpn tlb = some (i, entry)) {entry' : RawEntry}
    (hvalid : entry'.valid = entry.valid) (hpage : entry'.virtualPage = entry.virtualPage) :
    search vpn (tlb.set i entry') = some (i, entry') := by
  induction tlb generalizing i with
  | nil => cases h
  | cons e tlb ih =>
    rw [search] at h
    split_ifs at h with he
    · cases h
      rw [List.set_cons_zero, search, hvalid, hpage, if_pos he]
    · obtain ⟨⟨j, e'⟩, hj, heq⟩ := Option.map_eq_some_iff.1 h
      cases heq
      rw [List.set_cons_succ, search, if_neg he, ih hj]
      rfl

/-- A search for another page passes over the entry. -/
theorem search_set_of_ne (h : search vpn tlb = some (i, entry)) {entry' : RawEntry}
    (hpage : entry'.virtualPage = entry.virtualPage) {vpn' : Word} (hne : vpn' ≠ vpn) :
    search vpn' (tlb.set i entry') = search vpn' tlb := by
  induction tlb generalizing i with
  | nil => cases h
  | cons e tlb ih =>
    rw [search] at h
    split_ifs at h with he
    · cases h
      have hne : ¬entry.virtualPage = vpn' := fun h => hne (h.symm.trans he.2)
      rw [List.set_cons_zero, search, search, hpage, if_neg fun h => hne h.2,
        if_neg fun h => hne h.2]
    · obtain ⟨⟨j, e'⟩, hj, heq⟩ := Option.map_eq_some_iff.1 h
      cases heq
      rw [List.set_cons_succ, search, search, ih hj]

theorem getElem?_pages_of_tlb (tlb : List RawEntry) (virtAddr : Word) :
    (pages ⟨some tlb, none⟩)[virtAddr.toNat / pageSize]? =
      some (pageOf tlb (virtAddr / BitVec.ofNat 32 pageSize)) := by
  have hlt : virtAddr.toNat / pageSize < 2 ^ 24 := by
    have := virtAddr.isLt
    simp only [pageSize]
    omega
  have hvpn : BitVec.ofNat 32 (virtAddr.toNat / pageSize) =
      virtAddr / BitVec.ofNat 32 pageSize := by
    refine BitVec.eq_of_toNat_eq ?_
    rw [BitVec.toNat_ofNat, Nat.mod_eq_of_lt (Nat.lt_trans hlt (by decide))]
    rfl
  simp only [pages, List.getElem?_map, List.getElem?_range hlt, Option.map_some, hvpn]

/-- The bits of an entry are set in the page table as well. -/
theorem pages_setEntry_of_tlb (h : search (virtAddr / BitVec.ofNat 32 pageSize) tlb =
    some (i, entry)) (writing : Bool) :
    (setEntry ⟨some tlb, none⟩ i (entry.touch writing)).pages =
      (pages ⟨some tlb, none⟩).set (virtAddr.toNat / pageSize) (entry.touch writing).toEntry := by
  have hpage (vpn : ℕ) (h24 : vpn < 2 ^ 24) :
      pageOf (tlb.set i (entry.touch writing)) (BitVec.ofNat 32 vpn) =
        if virtAddr.toNat / pageSize = vpn then (entry.touch writing).toEntry
        else pageOf tlb (BitVec.ofNat 32 vpn) := by
    have hdiv : (virtAddr / BitVec.ofNat 32 pageSize).toNat = virtAddr.toNat / pageSize := rfl
    have hvpn : (BitVec.ofNat 32 vpn).toNat = vpn := by
      rw [BitVec.toNat_ofNat]
      omega
    split_ifs with heq
    · have : BitVec.ofNat 32 vpn = virtAddr / BitVec.ofNat 32 pageSize :=
        BitVec.eq_of_toNat_eq (by rw [hvpn, hdiv, heq])
      rw [this, pageOf, search_set_self h (entry.touch_valid writing)
        (entry.touch_virtualPage writing)]
    · have hne : BitVec.ofNat 32 vpn ≠ virtAddr / BitVec.ofNat 32 pageSize := fun heq' =>
        heq (by rw [← hdiv, ← heq', hvpn])
      rw [pageOf, pageOf, search_set_of_ne h (entry.touch_virtualPage writing) hne]
  refine List.ext_getElem (by simp [pages, setEntry]) fun vpn h₁ h₂ => ?_
  have h24 : vpn < 2 ^ 24 := by simpa [pages, setEntry] using h₁
  simp only [pages, setEntry, Option.map_some, List.getElem_map, List.getElem_range,
    List.getElem_set]
  exact hpage vpn h24

/-- The checks of an entry, of which the frame is that of the address. -/
theorem translateBy_toEntry (mmu : Mmu) (i : ℕ) (writing : Bool)
    (haligned : size.Aligned virtAddr) (hvalid : entry.valid = true) :
    (∃ which, mmu.translateBy i entry (virtAddr % BitVec.ofNat 32 pageSize) size writing =
        .ok (.error which, mmu) ∧ entry.toEntry.check writing = .error which) ∨
    ∃ physAddr, mmu.translateBy i entry (virtAddr % BitVec.ofNat 32 pageSize) size writing =
        .ok (.ok physAddr, mmu.setEntry i (entry.touch writing)) ∧
      entry.toEntry.check writing = .ok (entry.touch writing).toEntry ∧
      entry.physicalPage.toNat * pageSize + virtAddr.toNat % pageSize = physAddr.toNat := by
  have hle := haligned.offset_le
  have hcheck : entry.toEntry.check writing =
      if entry.readOnly = true ∧ writing = true then .error .readOnlyException
      else if numPhysPages ≤ entry.physicalPage.toNat then .error .busErrorException
      else .ok (entry.touch writing).toEntry :=
    if_neg (by simp [RawEntry.toEntry, hvalid])
  have hoffset : (virtAddr % BitVec.ofNat 32 pageSize).toNat + size.width ≤ pageSize := hle
  rw [translateBy_eq mmu i entry writing hoffset, hcheck]
  split_ifs with hr hp
  · exact .inl ⟨_, rfl, rfl⟩
  · exact .inl ⟨_, rfl, rfl⟩
  · refine .inr ⟨_, rfl, rfl, ?_⟩
    rw [BitVec.toNat_ofNat]
    change _ = (entry.physicalPage.toNat * pageSize + virtAddr.toNat % pageSize) % _
    simp only [pageSize, numPhysPages] at hle hp ⊢
    omega

theorem translate_of_check {pt : List TranslationEntry} {e : TranslationEntry}
    {which : ExceptionType} (h : size.Aligned virtAddr)
    (he : pt[virtAddr.toNat / pageSize]? = some e) (hcheck : e.check writing = .error which) :
    Machine.translate pt virtAddr size writing = .error which := by
  rw [Machine.translate, if_pos h]
  simp only [he, hcheck]

/-- Both translations end with the same entry. -/
theorem translate_pages_of_entry (h : size.Aligned virtAddr) (hvalid : entry.valid = true)
    (htranslate : mmu.translate virtAddr size writing =
      mmu.translateBy i entry (virtAddr % BitVec.ofNat 32 pageSize) size writing)
    (hpages : mmu.pages[virtAddr.toNat / pageSize]? = some entry.toEntry)
    (hset : (mmu.setEntry i (entry.touch writing)).pages =
      mmu.pages.set (virtAddr.toNat / pageSize) (entry.touch writing).toEntry) :
    (∃ which, mmu.translate virtAddr size writing = .ok (.error which, mmu) ∧
      Machine.translate mmu.pages virtAddr size writing = .error which) ∨
    ∃ physAddr mmu', mmu.translate virtAddr size writing = .ok (.ok physAddr, mmu') ∧
      Machine.translate mmu.pages virtAddr size writing = .ok (physAddr.toNat, mmu'.pages) := by
  rw [htranslate]
  rcases translateBy_toEntry mmu i writing h hvalid with
    ⟨which, hby, hcheck⟩ | ⟨physAddr, hby, hcheck, haddr⟩
  · exact .inl ⟨which, hby, translate_of_check h hpages hcheck⟩
  · exact .inr ⟨physAddr, _, hby,
      Machine.translate_eq_ok.2 ⟨h, _, _, hpages, hcheck, haddr, hset.symm⟩⟩

/-- The translation is that of the page table for which the structure stands. -/
theorem translate_pages (h : mmu.Installed) (virtAddr : Word) (size : AccessSize)
    (writing : Bool) :
    (∃ which, mmu.translate virtAddr size writing = .ok (.error which, mmu) ∧
      Machine.translate mmu.pages virtAddr size writing = .error which) ∨
    ∃ physAddr mmu', mmu.translate virtAddr size writing = .ok (.ok physAddr, mmu') ∧
      Machine.translate mmu.pages virtAddr size writing = .ok (physAddr.toNat, mmu'.pages) := by
  by_cases ha : size.Aligned virtAddr
  · obtain ⟨_ | tlb, _ | table⟩ := mmu
    · exact absurd rfl h
    · have htranslate := translate_ofPageTable table writing ha
      have hpages : (pages ⟨none, some table⟩)[virtAddr.toNat / pageSize]? =
          table[virtAddr.toNat / pageSize]?.map RawEntry.toEntry := List.getElem?_map ..
      rcases he : table[virtAddr.toNat / pageSize]? with _ | entry
      · rw [he] at htranslate hpages
        refine .inl ⟨_, htranslate, ?_⟩
        rw [Machine.translate, if_pos ha]
        simp only [hpages, Option.map_none]
      · rw [he] at htranslate hpages
        dsimp only at htranslate
        split_ifs at htranslate with hv
        · refine .inl ⟨_, htranslate, translate_of_check ha hpages ?_⟩
          exact if_pos hv
        · exact translate_pages_of_entry ha (by simpa using hv) htranslate hpages List.map_set
    · have htranslate := translate_ofTlb tlb writing ha
      have hpages := getElem?_pages_of_tlb tlb virtAddr
      rcases hs : search (virtAddr / BitVec.ofNat 32 pageSize) tlb with _ | ⟨i, entry⟩
      · rw [pageOf, hs] at hpages
        rw [hs] at htranslate
        exact .inl ⟨_, htranslate, translate_of_check ha hpages rfl⟩
      · rw [pageOf, hs] at hpages
        rw [hs] at htranslate
        exact translate_pages_of_entry ha (mem_of_search hs).2.1 htranslate hpages
          (pages_setEntry_of_tlb hs writing)
    · exact absurd rfl h
  · exact .inl ⟨.addressErrorException, if_neg ha, if_neg ha⟩

/-- A translation answers an exception and changes nothing, or it succeeds as `Translated` says. No
`ASSERT` fails. -/
theorem translate_spec (h : mmu.Installed) (virtAddr : Word) (size : AccessSize)
    (writing : Bool) :
    ∃ answer mmu', mmu.translate virtAddr size writing = .ok (answer, mmu') ∧
      match answer with
      | .error which => which ≠ .noException ∧ mmu' = mmu
      | .ok physAddr =>
        ∃ i entry, mmu.Translated virtAddr size writing physAddr.toNat i entry mmu' := by
  rcases translate_cases h virtAddr size writing with
    ⟨which, hne, he⟩ | ⟨physAddr, i, entry, mmu', hok, hspec⟩
  · exact ⟨_, _, he, hne, rfl⟩
  · exact ⟨_, _, hok, i, entry, hspec⟩

/-- A TLB with the largest page of the address space, which is in frame 2. -/
theorem translate_spec_of_last_page :
    let mmu : Mmu := ⟨some [⟨0xffffff, 2, true, false, false, false⟩], none⟩
    mmu.Installed ∧ ∃ mmu' i entry, mmu.translate 0xfffffffc .four true = .ok (.ok 0x2fc, mmu') ∧
      mmu.Translated 0xfffffffc .four true 0x2fc i entry mmu' := by
  have hinstalled : Installed ⟨some [⟨0xffffff, 2, true, false, false, false⟩], none⟩ := by decide
  obtain ⟨answer, mmu', htranslate, hspec⟩ := translate_spec hinstalled 0xfffffffc .four true
  cases htranslate
  obtain ⟨i, entry, h⟩ := hspec
  exact ⟨hinstalled, _, i, entry, rfl, h⟩

end Mmu

end Nachos
