import Mathlib.Data.List.GetD
import MapReduce.Aof.RoundTrip
import MapReduce.Lib.TableCrc

/-! Changed bytes in a file header or a record, and the checksum that covers them.

The table of `crc64.c` has 256 different leading bytes, so a change that fits
into the register, eight bytes, never cancels out.
-/

set_option autoImplicit false

namespace MapReduce

/-! ## The register of `crc64.c` -/

def crcWord (i : BitVec 8) : BitVec 64 := (crc64Tab.getD i.toNat 0).toBitVec

theorem crc64_run (crc : UInt64) (s : Bytes) :
    (crc64 crc s).toBitVec = TableCrc.run crcWord crc.toBitVec (s.map UInt8.toBitVec) := by
  induction s generalizing crc with
  | nil => rfl
  | cons byte s ih => exact ih (crc64Step crc byte)

theorem crc64Tab_length : crc64Tab.length = 256 := by decide +kernel

theorem crc64Tab_leads : (crc64Tab.map fun word => word.toNat >>> 56).Nodup := by
  apply TableCrc.nodup_of_marks
  rw [List.length_map, crc64Tab_length]
  decide +kernel

theorem crcWord_distinct : TableCrc.LeadDistinct crcWord := by
  intro i j same
  have inside : ∀ k : BitVec 8, k.toNat < crc64Tab.length := fun k => by
    rw [crc64Tab_length]
    exact k.isLt
  have leads := congrArg BitVec.toNat same
  rw [BitVec.toNat_ushiftRight, BitVec.toNat_ushiftRight, crcWord, crcWord, List.getD_eq_getElem _ _ (inside i),
    List.getD_eq_getElem _ _ (inside j)] at leads
  have mapped : ∀ k : BitVec 8, k.toNat < (crc64Tab.map fun word => word.toNat >>> 56).length := fun k => by
    rw [List.length_map]
    exact inside k
  have injective := @List.Nodup.getElem_inj_iff _ _ crc64Tab_leads i.toNat (mapped i) j.toNat (mapped j)
  rw [List.getElem_map, List.getElem_map] at injective
  exact BitVec.eq_of_toNat_eq (injective.mp leads)

theorem crc64_burst (before after : Bytes) {burst burst' : Bytes} (length : burst'.length = burst.length)
    (fits : burst.length ≤ 8) (changed : burst ≠ burst') :
    crc64 0 (before ++ burst ++ after) ≠ crc64 0 (before ++ burst' ++ after) := by
  intro same
  have runs := congrArg UInt64.toBitVec same
  rw [crc64_run, crc64_run] at runs
  simp only [List.map_append] at runs
  refine TableCrc.run_burst crcWord_distinct (by decide) _ _ _ ?_ ?_ ?_ runs
  · rw [List.length_map, List.length_map, length]
  · rw [List.length_map]
    omega
  · intro equal
    exact changed (List.map_injective_iff.mpr (fun _ _ => UInt8.toBitVec_inj.mp) equal)

/-! ## Changed bytes -/

/-- The two strings differ at most from position `lo` to before position `hi`. -/
def ChangedWithin (lo hi : Nat) (written found : Bytes) : Prop :=
  ∀ i, found[i]? ≠ written[i]? → lo ≤ i ∧ i < hi

/-- Bytes of which the checksum covers the first `covered`, after a change within eight consecutive ones of these
or within the checksum. -/
structure Corrupted (covered : Nat) (written found : Bytes) : Prop where
  differs : found ≠ written
  length : found.length = written.length
  place : (∃ lo hi, hi ≤ lo + 8 ∧ hi ≤ covered ∧ ChangedWithin lo hi written found) ∨
    ChangedWithin covered written.length written found

section Change
variable {lo hi : Nat} {written found : Bytes} (changed : ChangedWithin lo hi written found)

include changed in
theorem ChangedWithin.take {n : Nat} (before : n ≤ lo) : found.take n = written.take n := by
  apply List.ext_getElem?
  intro i
  rw [List.getElem?_take, List.getElem?_take]
  split
  next below =>
    by_contra differs
    have := (changed i differs).1
    omega
  · rfl

include changed in
theorem ChangedWithin.drop {n : Nat} (behind : hi ≤ n) : found.drop n = written.drop n := by
  apply List.ext_getElem?
  intro i
  rw [List.getElem?_drop, List.getElem?_drop]
  by_contra differs
  have := (changed (n + i) differs).2
  omega

end Change

theorem changedWithin_set (written : Bytes) (i : Nat) (byte : UInt8) :
    ChangedWithin i (i + 1) written (written.set i byte) := by
  intro j differs
  by_cases same : i = j
  · omega
  · rw [List.getElem?_set_ne same] at differs
    exact absurd rfl differs

theorem ChangedWithin.crc64_ne {lo hi : Nat} {written found : Bytes} (changed : ChangedWithin lo hi written found)
    (short : hi ≤ lo + 8) (length : found.length = written.length) (differs : found ≠ written) :
    crc64 0 found ≠ crc64 0 written := by
  have split : ∀ s : Bytes, s = s.take lo ++ (s.drop lo).take 8 ++ s.drop (lo + 8) := by
    intro s
    rw [List.append_assoc, ← List.drop_drop, List.take_append_drop, List.take_append_drop]
  have front := changed.take (Nat.le_refl lo)
  have back := changed.drop short
  rw [split found, split written, front, back]
  apply crc64_burst
  · simp only [List.length_take, List.length_drop, length]
  · exact List.length_take_le 8 _
  · intro same
    apply differs
    rw [split found, split written, front, back, same]

theorem Corrupted.mismatch {covered : Nat} {body found : Bytes} (length : body.length = covered)
    (corrupted : Corrupted covered (withCrc body) found) :
    BigEndian.value ((found.drop covered).take 8) ≠ (crc64 0 (found.take covered)).toNat := by
  subst length
  have total : found.length = body.length + 8 := by rw [corrupted.length, withCrc_length]
  have last : (found.drop body.length).length = 8 := by
    rw [List.length_drop]
    omega
  rw [List.take_of_length_le (Nat.le_of_eq last)]
  rcases corrupted.place with ⟨lo, hi, short, inside, changed⟩ | changed
  · -- The checksum is as it was written, and the section is not.
    have crc : found.drop body.length = BigEndian.encode 8 (crc64 0 body).toNat := by
      rw [changed.drop inside, withCrc, List.drop_left]
    have covered : ChangedWithin lo hi body (found.take body.length) := by
      intro i differs
      rw [List.getElem?_take] at differs
      split at differs
      next below =>
        apply changed i
        rwa [withCrc, List.getElem?_append_left below]
      next outside => exact absurd (List.getElem?_eq_none (Nat.not_lt.mp outside)).symm differs
    have differs : found.take body.length ≠ body := by
      intro same
      apply corrupted.differs
      rw [← List.take_append_drop body.length found, same, crc, withCrc]
    rw [crc, BigEndian.value_encode 8 (crc_fits body)]
    intro same
    refine covered.crc64_ne short ?_ differs (UInt64.toNat_inj.mp same.symm)
    rw [List.length_take]
    omega
  · -- The section is as it was written, and the checksum is not.
    have section_ : found.take body.length = body := by
      rw [changed.take (Nat.le_refl _), withCrc, List.take_left]
    rw [section_]
    intro same
    apply corrupted.differs
    rw [← withCrc_of_check last same, ← List.take_append_drop body.length found, section_, List.drop_left' rfl]

/-! ## The readers -/

theorem aofReadFileHeader_mismatch {found : Bytes} (length : found.length = aofFileHeaderSize) (rest : Bytes)
    (mismatch : BigEndian.value ((found.drop (aofFileHeaderSize - aofFileCrcLen)).take aofFileCrcLen) ≠
      (crc64 0 (found.take (aofFileHeaderSize - aofFileCrcLen))).toNat) :
    aofReadFileHeader (found ++ rest) = .error .failed := by
  simp only [aofReadFileHeader, readExact, List.take_left' length, if_pos mismatch, ite_self]

theorem aofReadRecord_mismatch {found : Bytes} (length : found.length = aofRecordSize) (rest : Bytes)
    (mismatch : BigEndian.value ((found.drop (aofRecordSize - aofRecordCrcLen)).take aofRecordCrcLen) ≠
      (crc64 0 (found.take (aofRecordSize - aofRecordCrcLen))).toNat) :
    aofReadRecord (found ++ rest) = .error .failed := by
  have some_bytes : ¬ found.length = 0 := by
    rw [length]
    decide
  simp only [aofReadRecord, readExact, List.take_left' length, if_neg some_bytes, if_pos mismatch, ite_self]

theorem writeAll_whole {script : List WriteResult} {file buf written : Bytes}
    (bytes : (writeAll script file buf).1 = file ++ written)
    (all : ((writeAll script file buf).2 == some buf.length) = true) : written = buf := by
  rw [writeAll_eq] at bytes all
  simp only [beq_iff_eq] at bytes all
  split at all
  next every =>
    rw [every, List.take_length] at bytes
    exact (List.append_cancel_left bytes).symm
  · cases all

/-- A header or a record that was written whole and then changed, in at most eight consecutive bytes that its
checksum covers or in the checksum, is refused by its reader. -/
theorem corruption_detected :
    (∀ script file createdMs written, aofWriteFileHeader script file createdMs = (file ++ written, true) →
      ∀ found rest, Corrupted (aofFileHeaderSize - aofFileCrcLen) written found →
        aofReadFileHeader (found ++ rest) = .error .failed) ∧
    (∀ script file msg kind written, aofWriteRecord script file msg kind = (file ++ written, true) →
      ∀ found rest, Corrupted (aofRecordSize - aofRecordCrcLen) written found →
        aofReadRecord (found ++ rest) = .error .failed) := by
  constructor
  · intro script file createdMs written stored found rest corrupted
    obtain ⟨bytes, all⟩ := Prod.mk.inj stored
    rw [← aofFileHeader_length createdMs] at all
    cases writeAll_whole bytes all
    refine aofReadFileHeader_mismatch ?_ rest (corrupted.mismatch (aofFileHeaderBody_length createdMs))
    rw [corrupted.length, aofFileHeader_length]
  · intro script file msg kind written stored found rest corrupted
    obtain ⟨bytes, all⟩ := Prod.mk.inj stored
    cases writeAll_whole bytes all
    refine aofReadRecord_mismatch ?_ rest (corrupted.mismatch (AofRecord.body_length _))
    rw [corrupted.length, AofRecord.bytes_length]

/-- One byte of the flags of a header, and one of the checksum of a record. -/
theorem corruption_detected_flip :
    aofReadFileHeader ((aofFileHeader 0).set 15 1) = .error .failed ∧
      aofReadRecord ((AofRecord.of ⟨3, 1, 0⟩ (some .map)).bytes.set 9 0) = .error .failed := by
  have header := corruption_detected.1 [] [] 0 (aofFileHeader 0) (by decide +kernel) ((aofFileHeader 0).set 15 1) []
    ⟨by decide +kernel, List.length_set,
      .inl ⟨15, 16, by decide, by decide, changedWithin_set (aofFileHeader 0) 15 1⟩⟩
  have record := corruption_detected.2 [] [] ⟨3, 1, 0⟩ (some .map) (AofRecord.of ⟨3, 1, 0⟩ (some .map)).bytes
    (by decide +kernel) ((AofRecord.of ⟨3, 1, 0⟩ (some .map)).bytes.set 9 0) []
    ⟨by decide +kernel, List.length_set, .inr fun i differs => by
      have place := changedWithin_set (AofRecord.of ⟨3, 1, 0⟩ (some .map)).bytes 9 0 i differs
      rw [AofRecord.bytes_length]
      simp only [aofRecordSize, aofRecordKindLen, aofRecordTaskIdLen, aofRecordAttemptIdLen, aofRecordCrcLen]
      omega⟩
  rw [List.append_nil] at header record
  exact ⟨header, record⟩

end MapReduce
