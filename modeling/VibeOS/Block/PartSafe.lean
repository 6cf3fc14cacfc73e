import VibeOS.Block.Part
import VibeOS.Lib.Effect

/-!
Reading a partition table of any bytes, with any reads failing: the reads are few and stay on the
disk. A GPT header is taken exactly when its fields and its checksum are in order.
-/
namespace VibeOS.Block
open Lib

variable {n m nsectors sectorSize : Nat} {read : Reader n}

/-- Every sector read so far is one of the disk. -/
def OnDisk (nsectors : Nat) (w : Work n m) : Prop :=
  ∀ e ∈ w.log, e.1 < nsectors

/-- The program reads at most `k` sectors, all on the disk. -/
abbrev ReadsAtMost {α : Type} (nsectors k : Nat) (p : Eff (Work n m) PartError α) : Prop :=
  Eff.Costs (OnDisk nsectors) (fun w => w.log.length) 1 k p

theorem readSector_reads {lba : Nat} (h : lba < nsectors) :
    ReadsAtMost nsectors 1 (readSector (m := m) read lba) := by
  intro w hw
  rw [Eff.wp_iff_run]
  have hdone : OnDisk nsectors (readSector (m := m) read lba w).2 ∧
      (readSector (m := m) read lba w).2.log.length ≤ w.log.length + 1 * 1 := by
    refine ⟨List.forall_mem_append.mpr ⟨hw, List.forall_mem_singleton.mpr h⟩, ?_⟩
    exact Nat.le_of_eq List.length_append
  exact ⟨fun _ _ hr => by rwa [hr] at hdone, fun _ _ hr => by rwa [hr] at hdone⟩

theorem loadChunks_reads {want bs : Nat} (k off lba : Nat) (h : lba + k ≤ nsectors)
    (hmax : lba + k ≤ u64Max) :
    ReadsAtMost nsectors k (loadChunks (m := m) read want bs k off lba) := by
  induction k generalizing off lba with
  | zero => exact .pure ()
  | succ k ih =>
    rw [loadChunks, Nat.add_comm]
    refine (readSector_reads (by omega)).bind fun _ => .requireThen fun _ => ?_
    rw [saturatingAdd_eq (show lba + 1 ≤ u64Max by omega)]
    have hstore : ReadsAtMost nsectors 0 (Eff.modify fun w : Work n m =>
        { w with scratch := w.scratch.put off (w.buf.slice 0 (min bs (want - off))) }) :=
      .modify (fun _ hw => hw) fun _ => Nat.le_add_right _ _
    exact hstore.bindFree fun _ => ih (off + bs) (lba + 1) (by omega) (by omega)

structure HeaderGood (sec : Buf n) (nsectors size stored nent : Nat) : Prop where
  sig : field sec 0 8 = some gptSig
  size_eq : r32 sec 12 = some size
  size_ge : gptHeaderSize ≤ size
  size_le : size ≤ 512 ∧ size ≤ n
  stored_eq : r32 sec 16 = some stored
  crc : crc32Ieee (List.ofFn ((first size sec).putLE 4 16 0)) = stored
  lba : ∃ lba < nsectors, r64 sec 24 = some lba
  entry : r32 sec 84 = some gptEntrySize
  count_eq : r32 sec 80 = some nent
  count : 0 < nent ∧ nent ≤ 128

theorem headerOk_iff {sec : Buf n} :
    headerOk sec nsectors = true ↔
      ∃ size stored nent, HeaderGood sec nsectors size stored nent := by
  constructor
  · intro h
    have hsome : headerFieldsOk sec nsectors = some true := by
      simpa [headerOk, Option.getD_eq_iff] using h
    unfold headerFieldsOk at hsome
    obtain ⟨sig, hsig, h⟩ := Option.bind_eq_some_iff.mp hsome
    split at h
    · cases h
    rename_i hsig'
    obtain ⟨size, hsize, h⟩ := Option.bind_eq_some_iff.mp h
    split at h
    · cases h
    rename_i hge
    obtain ⟨stored, hstored, h⟩ := Option.bind_eq_some_iff.mp h
    split at h
    · cases h
    rename_i hle
    dsimp only at h
    split at h
    · cases h
    rename_i hcrc
    obtain ⟨lba, hlba, h⟩ := Option.bind_eq_some_iff.mp h
    split at h
    · cases h
    rename_i hlt
    obtain ⟨psz, hpsz, h⟩ := Option.bind_eq_some_iff.mp h
    obtain ⟨nent, hnent, h⟩ := Option.bind_eq_some_iff.mp h
    have hcount : psz = gptEntrySize ∧ nent > 0 ∧ nent ≤ 128 := by simpa using h
    refine ⟨size, stored, nent, ?_⟩
    exact ⟨by rw [hsig, not_not.mp hsig'], hsize, by omega, by omega, hstored, not_not.mp hcrc,
      ⟨lba, by omega, hlba⟩, by rw [hpsz, hcount.1], hnent, hcount.2⟩
  · rintro ⟨size, stored, nent, h⟩
    obtain ⟨lba, hlt, hlba⟩ := h.lba
    have hsome : headerFieldsOk sec nsectors = some true := by
      have hge := h.size_ge
      have hle := h.size_le
      simp [headerFieldsOk, h.sig, h.size_eq, h.stored_eq, h.crc, hlba, h.entry, h.count_eq,
        h.count, Nat.not_lt.mpr hge, Nat.not_lt.mpr hle.1, Nat.not_lt.mpr hle.2, Nat.not_le.mpr hlt]
    rw [headerOk, hsome]
    rfl

/-- Sectors that hold an array of `want` bytes. -/
def sectorsFor (want bs : Nat) : Nat :=
  (want + (bs - 1)) / bs

theorem sectorsFor_mono {want want' bs : Nat} (h : want ≤ want') :
    sectorsFor want bs ≤ sectorsFor want' bs :=
  Nat.div_le_div_right (by omega)

theorem le_sectorsFor_mul (want : Nat) {bs : Nat} (hbs : 0 < bs) :
    want ≤ sectorsFor want bs * bs := by
  unfold sectorsFor
  have hsum := Nat.div_add_mod (want + (bs - 1)) bs
  have hlt := Nat.mod_lt (want + (bs - 1)) hbs
  rw [Nat.mul_comm bs] at hsum
  omega

theorem loadEntries_reads {partLba nent : Nat} (hn : nent ≤ 128) :
    ReadsAtMost nsectors (sectorsFor (128 * gptEntrySize) sectorSize)
      (loadEntries (m := m) read partLba nent nsectors sectorSize) := by
  refine .requireThen fun _ => .requireThen fun _ => .requireThen fun hin => ?_
  have hload : ReadsAtMost nsectors _
      (loadChunks (m := m) read (nent * gptEntrySize) sectorSize _ 0 partLba) :=
    loadChunks_reads _ 0 partLba hin.2 hin.1
  refine (hload.bind fun _ => .pure (n := 0) nent).mono ?_
  exact sectorsFor_mono (Nat.mul_le_mul_right _ hn)

theorem tryGpt_reads {headerLba : Nat} {usedBackup : Bool} :
    ReadsAtMost nsectors (1 + sectorsFor (128 * gptEntrySize) sectorSize)
      (tryGpt (m := m) nsectors sectorSize read headerLba usedBackup) := by
  refine .requireThen fun hlt => (readSector_reads hlt).bind fun _ => .get_bind fun w _ => ?_
  refine .requireThen fun hok => ?_
  obtain ⟨size, stored, nent, hgood⟩ := headerOk_iff.mp hok
  have hcount : Eff.Returns (fun k _ => k ≤ 128)
      (Eff.ofExcept ((r32 w.buf 80).elim (.error PartError.truncated) .ok) :
        Eff (Work n m) PartError Nat) := by
    rw [hgood.count_eq]
    exact fun _ => hgood.count.2
  refine .bindFree (.ofExcept _) fun partLba => ?_
  refine ((Eff.Costs.ofExcept _).after hcount fun k hk => ?_).mono (Nat.le_of_eq (Nat.zero_add _))
  refine .bindFree (.ofExcept _) fun ecrc => ?_
  refine (loadEntries_reads hk).bind (k := 0) fun got => ?_
  refine .get_bind fun w' _ => .bindFree (.ofExcept _) fun entries => .requireThen fun _ => .pure _

theorem walkEbrs_reads {extStart extEnd : Nat} (depth ebr : Nat) (t : Table) (logical : Nat) :
    ReadsAtMost nsectors depth
      (walkEbrs (m := m) read nsectors extStart extEnd depth ebr t logical) := by
  induction depth generalizing ebr t logical with
  | zero => exact .pure _
  | succ depth ih =>
    rw [walkEbrs]
    refine .ite _ (fun _ => .pure _) fun hlt => ?_
    rw [Nat.add_comm]
    refine (readSector_reads (by omega)).attempt.bind fun r => ?_
    cases r with
    | error e => exact .pure _
    | ok u =>
      refine .get_bind fun w _ => .ite _ (fun _ => ?_) fun _ => .pure _
      cases mbrEntry w.buf 0 with
      | none => exact .pure _
      | some e =>
        dsimp only
        split
        · exact .pure _
        · split
          · exact .pure _
          · exact ih _ _ _

theorem parseSlots_reads (slots : List (UInt8 × Nat × Nat)) (slot : Nat) (t : Table)
    (logical : Nat) :
    ReadsAtMost nsectors (slots.length * maxEbrDepth)
      (parseSlots (m := m) nsectors read slots slot t logical) := by
  induction slots generalizing slot t logical with
  | nil => exact .pure _
  | cons e slots ih =>
    obtain ⟨sys, start, count⟩ := e
    have hskip : ∀ slot t logical, ReadsAtMost nsectors ((slots.length + 1) * maxEbrDepth)
        (parseSlots (m := m) nsectors read slots slot t logical) := by
      intro slot t logical
      exact (ih slot t logical).mono (Nat.mul_le_mul_right _ (Nat.le_succ _))
    rw [parseSlots, List.length_cons]
    refine .ite _ (fun _ => hskip _ _ _) fun _ => .ite _ (fun _ => ?_) fun _ => ?_
    · rw [Nat.succ_mul, Nat.add_comm]
      exact (walkEbrs_reads _ _ _ _).bind fun r => ih _ _ _
    · split
      · exact hskip _ _ _
      · refine .ite _ (fun _ => hskip _ _ _) fun _ => ?_
        split
        · exact .pure _
        · exact hskip _ _ _

theorem primaries_eq_some {sector : Buf n} {prim : List (UInt8 × Nat × Nat)}
    (h : primaries sector = some prim) :
    prim.length = 4 ∧ ∀ e ∈ prim, ∃ i < 4, mbrEntry sector i = some e := by
  have hrange : List.range 4 = [0, 1, 2, 3] := rfl
  simp only [primaries, hrange, List.mapM_cons, List.mapM_nil, Option.bind_eq_bind,
    Option.pure_def, Option.bind_eq_some_iff, Option.some.injEq] at h
  obtain ⟨a, ha, l₁, ⟨b, hb, l₂, ⟨c, hc, l₃, ⟨d, hd, l₄, rfl, rfl⟩, rfl⟩, rfl⟩, rfl⟩ := h
  refine ⟨rfl, ?_⟩
  simp only [List.forall_mem_cons, List.not_mem_nil, false_implies, implies_true, and_true]
  exact ⟨⟨0, by decide, ha⟩, ⟨1, by decide, hb⟩, ⟨2, by decide, hc⟩, ⟨3, by decide, hd⟩⟩

/-- The reads of one call of `parse` at most. -/
def maxReads (sectorSize : Nat) : Nat :=
  1 + max (4 * maxEbrDepth) (2 * (1 + sectorsFor (128 * gptEntrySize) sectorSize))

theorem parse_reads : ReadsAtMost nsectors (maxReads sectorSize)
    (parse (m := m) nsectors sectorSize read) := by
  refine .requireThen fun _ => .requireThen fun hpos => ?_
  refine (readSector_reads (Nat.pos_of_ne_zero hpos)).bind fun _ => .get_bind fun w _ => ?_
  refine .ite _ (fun _ => ?_) fun _ => ?_
  · refine Eff.Costs.mono ?_ (Nat.le_max_right _ _)
    rw [Nat.two_mul]
    refine .requireThen fun _ => tryGpt_reads.attempt.bind fun r => ?_
    cases r with
    | ok t => exact .pure _
    | error e =>
      refine (tryGpt_reads.attempt.bind (k := 0) fun r => ?_)
      cases r with
      | ok t => exact .pure _
      | error e => exact .fail _
  · refine Eff.Costs.mono ?_ (Nat.le_max_left _ _)
    refine .requireThen fun _ => .get_bind fun w' _ => ?_
    have hprim : Eff.Returns (fun prim _ => prim.length = 4)
        (Eff.ofExcept ((primaries w'.buf).elim (.error PartError.truncated) .ok) :
          Eff (Work n m) PartError _) := by
      refine .ofExcept fun prim _ h => ?_
      cases hp : primaries w'.buf with
      | none =>
        rw [hp] at h
        cases h
      | some l =>
        rw [hp] at h
        exact Except.ok.inj h ▸ (primaries_eq_some hp).1
    refine ((Eff.Costs.ofExcept _).after hprim fun prim h4 => ?_).mono
      (Nat.le_of_eq (Nat.zero_add _))
    exact h4 ▸ parseSlots_reads prim 1 _ 0

end VibeOS.Block
