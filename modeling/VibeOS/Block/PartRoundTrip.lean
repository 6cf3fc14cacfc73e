import VibeOS.Block.PartTable

/-!
Reading back a GPT that was written with the packers. A header is found whole in its sector and
passes its own checks, the sectors of the entry array are put together again whatever the sector
size, and where the primary header or its array is damaged the backup gives the same partitions.
-/
namespace VibeOS.Block
open Lib

section
variable {n k o o' len v : Nat} {b : Buf n} {src : List UInt8}

theorem putAt_eq (h : o + src.length ≤ n) : putAt b o src = b.put o src :=
  if_pos h

theorem w32_eq (h : o + 4 ≤ n) : w32 b o v = b.putLE 4 o v :=
  putAt_eq (by rwa [length_leBytes])

theorem get_fillFront {s : Buf k} (h : k ≤ n) {i : Nat} (hi : i < k) :
    (fillFront b s).get i = s.get i := by
  rw [fillFront, if_pos h, Buf.get_put (Nat.zero_le i) (by simpa using hi) (by omega)]
  simp [Buf.get, hi]

end

namespace GptHeaderInfo

theorem sector_eq (h : GptHeaderInfo) : h.sector =
    ((((((((((((Buf.zero.put 0 gptSig).putLE 4 8 gptRevision).putLE 4 12 gptHeaderSize).putLE 4 16
      0).putLE
      8 24 h.myLba).putLE 8 32 h.altLba).putLE 8 40 h.firstUsable).putLE 8 48 h.lastUsable).put
      56 (List.ofFn h.diskGuid)).putLE 8 72 h.partLba).putLE 4 80 h.partCount).putLE
      4 84 h.partSize).putLE 4 88 h.entriesCrc := by
  have hsig : gptSig.length = 8 := rfl
  simp [sector, w32, w64, putAt, Buf.putLE, hsig]

def packed (h : GptHeaderInfo) : Buf 512 :=
  h.sector.putLE 4 16 (crc32Ieee (h.sector.slice 0 gptHeaderSize))

theorem packGptHeader_eq {n : Nat} (buf : Buf n) (h : GptHeaderInfo) :
    packGptHeader buf h = fillFront buf h.packed := by
  rw [packGptHeader, w32_eq (by decide)]
  rfl

/-- The fields that a reader takes out of the header. -/
structure Fields (h : GptHeaderInfo) (s : Buf 512) : Prop where
  sig : s.slice 0 8 = gptSig
  size : s.getLE 4 12 = gptHeaderSize
  crc : s.getLE 4 16 = crc32Ieee (h.sector.slice 0 gptHeaderSize)
  myLba : s.getLE 8 24 = h.myLba
  partLba : s.getLE 8 72 = h.partLba
  partCount : s.getLE 4 80 = h.partCount
  partSize : s.getLE 4 84 = h.partSize
  entriesCrc : s.getLE 4 88 = h.entriesCrc

/-- The numbers of the header fit their fields. -/
structure Fits (h : GptHeaderInfo) : Prop where
  myLba : h.myLba < 2 ^ 64
  partLba : h.partLba < 2 ^ 64
  partCount : h.partCount < 2 ^ 32
  partSize : h.partSize < 2 ^ 32
  entriesCrc : h.entriesCrc < 2 ^ 32

theorem getLE_packed_entriesCrc {h : GptHeaderInfo} (hlt : h.entriesCrc < 2 ^ 32) :
    h.packed.getLE 4 88 = h.entriesCrc := by
  rw [packed, sector_eq]
  simp (disch := simp) only [Buf.getLE_putLE_ne]
  exact Buf.getLE_putLE (by decide) hlt

theorem fields_packed {h : GptHeaderInfo} (hfit : h.Fits) : h.Fields h.packed := by
  constructor
  case crc => exact Buf.getLE_putLE (by decide) (crc32Ieee_lt _)
  case entriesCrc => exact getLE_packed_entriesCrc hfit.entriesCrc
  all_goals
    rw [packed, sector_eq]
    simp (disch := simp) only [Buf.putLE, Buf.slice_put_ne, Buf.getLE_put_ne]
  · exact Buf.slice_put (l := gptSig) (by decide)
  · exact Buf.getLE_putLE (by decide) (by decide)
  · exact Buf.getLE_putLE (by decide) hfit.myLba
  · exact Buf.getLE_putLE (by decide) hfit.partLba
  · exact Buf.getLE_putLE (by decide) hfit.partCount
  · exact Buf.getLE_putLE (by decide) hfit.partSize

theorem ofFn_zeroed_packed (h : GptHeaderInfo) :
    List.ofFn ((first gptHeaderSize h.packed).putLE 4 16 0) = h.sector.slice 0 gptHeaderSize := by
  rw [← Buf.slice_zero_eq_ofFn]
  refine Buf.slice_congr fun i hi => ?_
  rw [Nat.zero_add]
  have hfirst : (first gptHeaderSize h.packed).get i = h.packed.get i := by
    simp [first, Buf.get, hi]
  have hcleared : ∀ {k : Nat} (b : Buf k), 16 ≤ i → i < 20 → i < k →
      (b.putLE 4 16 0).get i = 0 := by
    intro k b h₁ h₂ hk
    rw [Buf.putLE, leBytes_zero, Buf.get_put h₁ (by simp; omega) hk, List.getElem_replicate]
  by_cases hin : 16 ≤ i ∧ i < 20
  · rw [hcleared _ hin.1 hin.2 hi, sector_eq]
    -- the fields written after the zeroed checksum lie behind it
    have hbefore : ∀ {o : Nat} (b : Buf 512) (l : List UInt8), 24 ≤ o →
      (b.put o l).get i = b.get i :=
      fun b l ho => Buf.get_put_ne (by omega)
    simp only [Buf.putLE]
    iterate 9 rw [hbefore _ _ (by decide)]
    exact (hcleared _ hin.1 hin.2 (by omega)).symm
  · rw [Buf.putLE, Buf.get_put_ne (by simp; omega), hfirst, packed, Buf.putLE,
      Buf.get_put_ne (by simp; omega)]

end GptHeaderInfo

section
variable {n k nsectors : Nat} {sec : Buf n} {s : Buf k}

/-- The buffer starts with the bytes of `s`. -/
structure StartsWith (sec : Buf n) (s : Buf k) : Prop where
  le : k ≤ n
  get_eq : ∀ i < k, sec.get i = s.get i

theorem StartsWith.field (h : StartsWith sec s) {o len : Nat} (hin : o + len ≤ k) :
    field sec o len = some (s.slice o len) := by
  have hle := h.le
  rw [Block.field, if_pos (by omega)]
  exact congrArg some (Buf.slice_congr fun i hi => h.get_eq _ (by omega))

theorem StartsWith.r32 (h : StartsWith sec s) {o : Nat} (hin : o + 4 ≤ k) :
    r32 sec o = some (s.getLE 4 o) := by
  rw [Block.r32, h.field hin]
  rfl

theorem StartsWith.r64 (h : StartsWith sec s) {o : Nat} (hin : o + 8 ≤ k) :
    r64 sec o = some (s.getLE 8 o) := by
  rw [Block.r64, h.field hin]
  rfl

theorem headerGood_packed {h : GptHeaderInfo} (hfit : h.Fits) (hsec : StartsWith sec h.packed)
    (hlba : h.myLba < nsectors) (hsize : h.partSize = gptEntrySize)
    (hcount : 0 < h.partCount ∧ h.partCount ≤ 128) :
    HeaderGood sec nsectors gptHeaderSize (crc32Ieee (h.sector.slice 0 gptHeaderSize))
      h.partCount := by
  have hf := GptHeaderInfo.fields_packed hfit
  have hle := hsec.le
  refine ⟨?_, ?_, Nat.le_refl _, ⟨by decide, Nat.le_trans (by decide) hle⟩, ?_, ?_,
    ⟨h.myLba, hlba, ?_⟩, ?_, ?_, hcount⟩
  · rw [hsec.field (by decide), hf.sig]
  · rw [hsec.r32 (by decide), hf.size]
  · rw [hsec.r32 (by decide), hf.crc]
  · rw [← h.ofFn_zeroed_packed]
    have hfront : first gptHeaderSize sec = first gptHeaderSize h.packed := by
      funext i
      exact hsec.get_eq i (Nat.lt_trans i.isLt (by decide))
    rw [hfront]
  · rw [hsec.r64 (by decide), hf.myLba]
  · rw [hsec.r32 (by decide), hf.partSize, hsize]
  · rw [hsec.r32 (by decide), hf.partCount]

end

section
variable {n m bs nsectors : Nat} {read : Reader n} {disk : Nat → Buf bs}

/-- Every read of a sector on the disk succeeds, and leaves its bytes at the front of the buffer. -/
def Serves (read : Reader n) (nsectors : Nat) (disk : Nat → Buf bs) : Prop :=
  ∀ k lba buf, lba < nsectors → (read k lba buf).1 = true ∧ StartsWith (read k lba buf).2 (disk lba)

/-- The first `want` bytes on the disk from sector `lba` on. -/
def arrayOn (disk : Nat → Buf bs) (lba want : Nat) : List UInt8 :=
  (List.range want).map fun i => (disk (lba + i / bs)).get (i % bs)

theorem wp_readSector_serves (hserves : Serves read nsectors disk) {lba : Nat}
    (hlba : lba < nsectors) {Q : Unit → Work n m → Prop} {E : PartError → Work n m → Prop}
    {w : Work n m} (h : ∀ b, StartsWith b (disk lba) →
      Q () { w with log := w.log ++ [(lba, b)], buf := b }) :
    (readSector read lba).wp Q E w := by
  obtain ⟨hok, hstarts⟩ := hserves w.log.length lba w.buf hlba
  unfold Eff.wp readSector
  simp only [hok, if_true]
  exact h _ hstarts

theorem wp_loadChunks (hserves : Serves read nsectors disk) {want : Nat} (hwant : want ≤ m)
    (hmax : nsectors ≤ u64Max) (lba₀ k j : Nat) (hin : lba₀ + j + k ≤ nsectors)
    (w : Work n m)
    (hfront : ∀ i < want, i < j * bs → w.scratch.get i = (disk (lba₀ + i / bs)).get (i % bs)) :
    (loadChunks read want bs k (j * bs) (lba₀ + j)).wp
      (fun _ w' => ∀ i < want, i < (j + k) * bs →
        w'.scratch.get i = (disk (lba₀ + i / bs)).get (i % bs)) (fun _ _ => False) w := by
  induction k generalizing j w with
  | zero => exact hfront
  | succ k ih =>
    rw [loadChunks, Eff.wp_bind]
    refine wp_readSector_serves hserves (by omega) fun b hb => ?_
    rw [Eff.wp_bind]
    refine Eff.wp_require_of (fun hlen => ?_) fun hlen => ?_
    · rw [Eff.wp_bind, Eff.wp_modify]
      have hnext : saturatingAdd (lba₀ + j) 1 = lba₀ + (j + 1) :=
        saturatingAdd_eq (show lba₀ + j + 1 ≤ u64Max by omega)
      rw [hnext, ← Nat.succ_mul, show j + (k + 1) = j + 1 + k by omega]
      refine ih (j + 1) (by omega) _ fun i hi hlt => ?_
      by_cases hold : i < j * bs
      · dsimp only
        rw [Buf.get_put_ne (.inl hold)]
        exact hfront i hi hold
      · have hge : j * bs ≤ i := Nat.le_of_not_lt hold
        have hdiv : i / bs = j := Nat.div_eq_of_lt_le hge hlt
        have hmod : i % bs = i - j * bs := by
          have := Nat.div_add_mod i bs
          rw [hdiv, Nat.mul_comm] at this
          omega
        have hbound : i - j * bs < bs := by
          rw [Nat.succ_mul] at hlt
          omega
        have hplace : i - j * bs < (b.slice 0 (min bs (want - j * bs))).length := by
          rw [Buf.length_slice]
          omega
        dsimp only
        rw [Buf.get_put hge hplace (by omega), hdiv, hmod, ← hb.get_eq _ hbound]
        simp [Buf.slice]
    · have := hb.le
      omega

theorem wp_loadEntries (hserves : Serves read nsectors disk) (hbs : 0 < bs)
    (hmax : nsectors ≤ u64Max) {lba nent : Nat} (hwant : nent * gptEntrySize ≤ m)
    (hin : lba + sectorsFor (nent * gptEntrySize) bs ≤ nsectors) (w : Work n m) :
    (loadEntries read lba nent nsectors bs).wp
      (fun got w' => got = nent ∧
        ∀ i < nent * gptEntrySize, w'.scratch.get i = (disk (lba + i / bs)).get (i % bs))
      (fun _ _ => False) w := by
  have hcover := le_sectorsFor_mul (nent * gptEntrySize) hbs
  unfold loadEntries
  rw [Eff.wp_bind]
  refine Eff.wp_require_of (fun _ => ?_) fun h => h hwant
  rw [Eff.wp_bind]
  refine Eff.wp_require_of (fun _ => ?_) fun h => h (Nat.ne_of_gt hbs)
  rw [Eff.wp_bind]
  refine Eff.wp_require_of (fun _ => ?_) fun h => h ⟨Nat.le_trans hin hmax, hin⟩
  rw [Eff.wp_bind]
  have hload := wp_loadChunks hserves hwant hmax lba
    (sectorsFor (nent * gptEntrySize) bs) 0 (by omega) w fun i _ hi => by omega
  rw [Nat.zero_mul, Nat.add_zero] at hload
  refine Eff.wp_mono hload (fun _ w' h => ⟨rfl, fun i hi => h i hi ?_⟩) fun _ _ => id
  rw [Nat.zero_add]
  omega

/-- The entries of an array, cut into pieces of 128 bytes. -/
def piecesOf (bytes : List UInt8) (nent : Nat) : List (Buf 128) :=
  (List.range nent).map fun i j => bytes.getD (gptEntrySize * i + j) 0

theorem tryGpt_eq (hserves : Serves read nsectors disk) (hbs : 512 ≤ bs) (hmax : nsectors ≤ u64Max)
    {h : GptHeaderInfo} (hfit : h.Fits) {headerLba : Nat} (hlba : headerLba < nsectors)
    (hsec : StartsWith (disk headerLba) h.packed) (hmy : h.myLba < nsectors)
    (hsize : h.partSize = gptEntrySize) (hcount : 0 < h.partCount ∧ h.partCount ≤ 128)
    (hwant : h.partCount * gptEntrySize ≤ m)
    (hin : h.partLba + sectorsFor (h.partCount * gptEntrySize) bs ≤ nsectors) (usedBackup : Bool)
    (w : Work n m) :
    (tryGpt nsectors bs read headerLba usedBackup).wp
      (fun t _ => crc32Ieee (arrayOn disk h.partLba (h.partCount * gptEntrySize)) = h.entriesCrc ∧
        t = parseGptEntries nsectors
          (piecesOf (arrayOn disk h.partLba (h.partCount * gptEntrySize)) h.partCount) 0
          ⟨.gpt usedBackup, []⟩)
      (fun _ _ => crc32Ieee (arrayOn disk h.partLba (h.partCount * gptEntrySize)) ≠ h.entriesCrc)
        w := by
  have hf := GptHeaderInfo.fields_packed hfit
  unfold tryGpt
  rw [Eff.wp_bind]
  refine Eff.wp_require_of (fun _ => ?_) fun hn => absurd hlba hn
  rw [Eff.wp_bind]
  refine wp_readSector_serves hserves hlba fun b hb => ?_
  have hstarts : StartsWith b h.packed :=
    ⟨Nat.le_trans hsec.le hb.le, fun i hi =>
      (hb.get_eq i (Nat.lt_of_lt_of_le hi hbs)).trans (hsec.get_eq i hi)⟩
  have hgood := headerOk_iff.mpr ⟨_, _, _, headerGood_packed hfit hstarts hmy hsize hcount⟩
  rw [Eff.wp_bind, Eff.wp_get]
  dsimp only
  rw [Eff.wp_bind]
  refine Eff.wp_require_of (fun _ => ?_) fun hn => absurd hgood hn
  rw [hstarts.r64 (by decide), hstarts.r32 (by decide), hstarts.r32 (by decide), hf.partLba,
    hf.partCount, hf.entriesCrc]
  simp only [Option.elim_some, Eff.wp_bind, Eff.wp_ofExcept]
  refine Eff.wp_mono (wp_loadEntries hserves (by omega) hmax hwant hin _) (fun got w' hload => ?_)
    fun _ _ => False.elim
  obtain ⟨rfl, hscratch⟩ := hload
  have harray : ∀ i < h.partCount * gptEntrySize,
      (arrayOn disk h.partLba (h.partCount * gptEntrySize))[i]? = some (w'.scratch.get i) := by
    intro i hi
    rw [hscratch i hi, arrayOn, List.getElem?_map, List.getElem?_range hi]
    rfl
  have hslice : w'.scratch.slice 0 (h.partCount * gptEntrySize) =
      arrayOn disk h.partLba (h.partCount * gptEntrySize) := by
    refine List.map_congr_left fun i hi => ?_
    rw [Nat.zero_add]
    exact hscratch i (List.mem_range.mp hi)
  have hpieces : (List.range h.partCount).map (entryAt w'.scratch) =
      piecesOf (arrayOn disk h.partLba (h.partCount * gptEntrySize)) h.partCount := by
    refine List.map_congr_left fun i hi => funext fun j => ?_
    have hlt : gptEntrySize * i + j < h.partCount * gptEntrySize := by
      have hi' := List.mem_range.mp hi
      have hj := j.isLt
      simp only [gptEntrySize]
      omega
    rw [List.getD_eq_getElem?_getD, harray _ hlt]
    rfl
  rw [Eff.wp_get]
  dsimp only
  rw [field, if_pos (by omega), hslice, Option.elim_some]
  refine Eff.wp_require_of (fun hcrc => ?_) id
  exact ⟨hcrc, by rw [hpieces]⟩

end

/-- The entries of an array, each written with `packGptEntry`. -/
def arrayBytes (entries : List GptEntryInfo) : List UInt8 :=
  entries.flatMap fun e => List.ofFn (packGptEntry (.zero : Buf 128) e)

namespace GptEntryInfo

def Used (e : GptEntryInfo) : Prop :=
  List.ofFn e.typeGuid ≠ guidUnused

instance (e : GptEntryInfo) : Decidable e.Used :=
  inferInstanceAs (Decidable (_ ≠ _))

theorem bytes_eq (e : GptEntryInfo) : e.bytes =
    ((((Buf.zero.put 0 (List.ofFn e.typeGuid)).put 16 (List.ofFn e.uniq)).putLE 8 32 e.first).putLE
      8 40 e.last).put 56 (utf16leName 36 e.name) := by
  have hname := length_utf16leName 36 e.name
  simp only [bytes]
  rw [putAt_eq (by omega)]
  simp [w64, putAt, Buf.putLE]

theorem packGptEntry_eq (b : Buf 128) (e : GptEntryInfo) : packGptEntry b e = e.bytes := by
  apply Buf.ext_get
  intro i hi
  exact get_fillFront (Nat.le_refl _) hi

theorem slice_guid (e : GptEntryInfo) : e.bytes.slice 0 16 = List.ofFn e.typeGuid := by
  rw [bytes_eq]
  simp (disch := simp) only [Buf.putLE, Buf.slice_put_ne]
  have := Buf.slice_put (b := (.zero : Buf 128)) (o := 0) (l := List.ofFn e.typeGuid) (by simp)
  rwa [List.length_ofFn] at this

theorem getLE_first (e : GptEntryInfo) (h : e.first < 2 ^ 64) : e.bytes.getLE 8 32 = e.first := by
  rw [bytes_eq]
  simp (disch := simp) only [Buf.getLE_putLE_ne, Buf.getLE_put_ne]
  exact Buf.getLE_putLE (by decide) h

theorem getLE_last (e : GptEntryInfo) (h : e.last < 2 ^ 64) : e.bytes.getLE 8 40 = e.last := by
  rw [bytes_eq]
  simp (disch := simp) only [Buf.getLE_put_ne]
  exact Buf.getLE_putLE (by decide) h

/-- The partition of a used entry at place `i`. -/
def part (e : GptEntryInfo) (i : Nat) : Option Part :=
  if e.Used then some ⟨i + 1, e.first, e.last - e.first + 1, .gpt (List.ofFn e.typeGuid)⟩ else none

end GptEntryInfo

/-- The partitions of the used entries, from place `i` on. -/
def usedParts : List GptEntryInfo → Nat → List Part
  | [], _ => []
  | e :: es, i => (e.part i).toList ++ usedParts es (i + 1)

theorem entryPart_used {index nsectors first last : Nat} {guid : List UInt8}
    (hu : guid ≠ guidUnused) (hle : first ≤ last) (hlt : last < nsectors)
    (hmax : nsectors ≤ u64Max) :
    entryPart index nsectors guid first last =
      some ⟨index, first, last - first + 1, .gpt guid⟩ := by
  have hcount : saturatingAdd (last - first) 1 = last - first + 1 :=
    saturatingAdd_eq (show last - first + 1 ≤ u64Max by omega)
  have hstop : saturatingAdd first (last - first + 1) = last + 1 := by
    rw [saturatingAdd_eq (show first + (last - first + 1) ≤ u64Max by omega)]
    omega
  unfold entryPart
  rw [if_neg (by rintro (h | h); exacts [hu h, by omega])]
  simp only [hcount, hstop]
  rw [if_neg (by omega)]

theorem parseGptEntries_used {nsectors : Nat} (hmax : nsectors ≤ u64Max)
    (entries : List GptEntryInfo) (hused : ∀ e ∈ entries, e.Used → e.first ≤ e.last ∧
      e.last < nsectors) (i : Nat)
    (hlen : i + entries.length ≤ 128) (t : Table)
    (hroom : t.parts.length + entries.countP (fun e => e.Used) ≤ maxParts) :
    parseGptEntries nsectors (entries.map GptEntryInfo.bytes) i t =
      { t with parts := t.parts ++ usedParts entries i } := by
  induction entries generalizing i t with
  | nil =>
    rw [usedParts, List.append_nil]
    rfl
  | cons e es ih =>
    obtain ⟨he, hes⟩ := List.forall_mem_cons.mp hused
    rw [List.length_cons] at hlen
    have hfields : StartsWith e.bytes e.bytes := ⟨Nat.le_refl _, fun _ _ => rfl⟩
    rw [List.map_cons, parseGptEntries, if_pos (by omega), hfields.field (by decide),
      hfields.r64 (by decide), hfields.r64 (by decide), e.slice_guid]
    dsimp only
    rw [List.countP_cons] at hroom
    by_cases hu : e.Used
    · obtain ⟨hle, hlt⟩ := he hu
      have hlt64 : e.last < 2 ^ 64 := by
        have : u64Max < 2 ^ 64 := by decide
        omega
      rw [e.getLE_first (by omega), e.getLE_last hlt64, entryPart_used hu hle hlt hmax]
      simp only [hu, decide_true, if_true] at hroom
      have hpush : pushPart t ⟨i + 1, e.first, e.last - e.first + 1, .gpt (List.ofFn e.typeGuid)⟩ =
          some { t with parts := t.parts ++
            [⟨i + 1, e.first, e.last - e.first + 1, .gpt (List.ofFn e.typeGuid)⟩] } :=
        pushPart_eq_some.mpr ⟨by omega, rfl⟩
      dsimp only
      rw [hpush]
      dsimp only
      rw [ih hes (i + 1) (by omega) _ (by simp; omega), usedParts, GptEntryInfo.part, if_pos hu]
      simp
    · have hnone : entryPart (i + 1) nsectors (List.ofFn e.typeGuid) (e.bytes.getLE 8 32)
          (e.bytes.getLE 8 40) = none :=
        if_pos (.inl (not_not.mp hu))
      simp only [hu, decide_false, Bool.false_eq_true, if_false, Nat.add_zero] at hroom
      rw [hnone]
      dsimp only
      rw [ih hes (i + 1) (by omega) t hroom, usedParts, GptEntryInfo.part, if_neg hu]
      rfl

theorem piecesOf_arrayBytes (entries : List GptEntryInfo) :
    piecesOf (arrayBytes entries) entries.length = entries.map GptEntryInfo.bytes := by
  apply List.ext_getElem
  · simp [piecesOf]
  · intro i h₁ h₂
    have hi : i < entries.length := by simpa [piecesOf] using h₁
    simp only [piecesOf, List.getElem_map, List.getElem_range]
    funext j
    have hj := j.isLt
    have hdiv : (gptEntrySize * i + j) / 128 = i := by
      simp only [gptEntrySize]
      omega
    have hmod : (gptEntrySize * i + j) % 128 = j := by
      simp only [gptEntrySize]
      omega
    rw [List.getD_eq_getElem?_getD, arrayBytes, getElem?_flatMap_const (fun _ => List.length_ofFn),
      hdiv, hmod, List.getElem?_eq_getElem hi, Option.bind_some, GptEntryInfo.packGptEntry_eq,
      List.getElem?_ofFn, dif_pos hj]
    rfl

def protectiveSector (nsectors : Nat) : Buf 512 :=
  ((((Buf.zero.put 446 [0]).put 450 [mbrProtective]).putLE 4 454 1).putLE
    4 458 (min (nsectors - 1) u32Max)).put 510 [0x55, 0xAA]

theorem packProtectiveMbr_eq {n nsectors : Nat} (h : 2 ≤ nsectors) (buf : Buf n) :
    packProtectiveMbr buf nsectors = fillFront buf (protectiveSector nsectors) := by
  have hcount : min (nsectors - 1) u32Max ≠ 0 := by
    simp only [u32Max]
    omega
  have hsys : mbrProtective ≠ 0 := by decide
  simp only [packProtectiveMbr, packMbr, writeSlots, ne_eq, hsys, hcount, not_false_eq_true,
    and_self, if_true, not_true_eq_false, if_false, writeMbrEntry, mbrPartOff, mbrEntryLen,
    mbrSigOff]
  rw [w32_eq (by decide), w32_eq (by decide), putAt_eq (by decide), putAt_eq (by decide),
    putAt_eq (by decide)]
  rfl

theorem isProtective_packed {n nsectors : Nat} {sector : Buf n}
    (h : StartsWith sector (protectiveSector nsectors)) : isProtective sector = true := by
  have hle := h.le
  have hsig : (protectiveSector nsectors).slice 510 2 = [0x55, 0xAA] :=
    Buf.slice_put (l := [0x55, 0xAA]) (by decide)
  have hsys : sector.get 450 = mbrProtective := by
    rw [h.get_eq 450 (by decide), protectiveSector]
    simp (disch := simp) only [Buf.putLE, Buf.get_put_ne]
    exact Buf.get_put (by decide) (by decide) (by decide)
  have hentry : mbrEntry sector 0 = some (mbrProtective, (protectiveSector nsectors).getLE 4 454,
      (protectiveSector nsectors).getLE 4 458) := by
    simp [mbrEntry, mbrEntryLen, mbrPartOff, r8, h.r32, hsys, show 450 < n by omega]
  have hmbr : hasMbrSig sector = true := by
    simp [hasMbrSig, mbrSigOff, h.field, hsig]
  simp only [isProtective, hmbr, Bool.true_and, List.any_eq_true, List.mem_range]
  exact ⟨0, by decide, by simp [hentry]⟩

section
variable {bs nsectors : Nat}

/-- Sector `lba` holds a part of the header's array. -/
def GptHeaderInfo.InArray (h : GptHeaderInfo) (bs lba : Nat) : Prop :=
  h.partLba ≤ lba ∧ lba < h.partLba + sectorsFor (h.partCount * gptEntrySize) bs

/-- A header at sector `lba`, for an array of `entries` somewhere on the disk. -/
structure HeaderOf (nsectors : Nat) (disk : Nat → Buf bs) (entries : List GptEntryInfo)
    (h : GptHeaderInfo) (lba : Nat) : Prop where
  written : ∃ buf, disk lba = packGptHeader buf h
  myLba : h.myLba = lba
  partCount : h.partCount = entries.length
  partSize : h.partSize = gptEntrySize
  crc : h.entriesCrc = entriesCrc (arrayBytes entries)
  array : arrayOn disk h.partLba (entries.length * gptEntrySize) = arrayBytes entries
  inside : h.partLba + sectorsFor (entries.length * gptEntrySize) bs ≤ nsectors

/-- A disk with a GPT of `entries`, its header at sector 1 and the backup at the last one. -/
structure GptDisk (nsectors : Nat) (disk : Nat → Buf bs) (entries : List GptEntryInfo)
    (pri bak : GptHeaderInfo) : Prop where
  sector : 512 ≤ bs
  sectors : nsectors ≤ u64Max
  count : 1 ≤ entries.length ∧ entries.length ≤ 128
  used : ∀ e ∈ entries, e.Used → e.first ≤ e.last ∧ e.last < nsectors
  room : entries.countP (fun e => e.Used) ≤ maxParts
  mbr : ∃ buf, disk 0 = packProtectiveMbr buf nsectors
  primary : HeaderOf nsectors disk entries pri 1
  backup : HeaderOf nsectors disk entries bak (nsectors - 1)
  last : 1 < nsectors - 1
  primary_apart : ∀ lba, pri.InArray bs lba → lba ≠ 0 ∧ lba ≠ 1 ∧ lba ≠ nsectors - 1
  backup_apart : ∀ lba, bak.InArray bs lba → lba ≠ 0 ∧ lba ≠ 1 ∧ lba ≠ nsectors - 1 ∧
    ¬ pri.InArray bs lba

/-- The sector holds a header, and the checksum it stores is the one of its bytes. -/
def HeaderCrcMatches (sec : Buf bs) : Prop :=
  field sec 0 8 = some gptSig ∧ ∃ size stored, r32 sec 12 = some size ∧ r32 sec 16 = some stored ∧
    gptHeaderSize ≤ size ∧ size ≤ bs ∧
      crc32Ieee (List.ofFn ((first size sec).putLE 4 16 0)) = stored

variable {disk disk' : Nat → Buf bs} {entries : List GptEntryInfo} {pri bak h : GptHeaderInfo}
  {n m lba : Nat} {read : Reader n}

theorem HeaderOf.startsWith (hh : HeaderOf nsectors disk entries h lba) (hbs : 512 ≤ bs) :
    StartsWith (disk lba) h.packed := by
  obtain ⟨buf, hbuf⟩ := hh.written
  refine ⟨hbs, fun i hi => ?_⟩
  rw [hbuf, GptHeaderInfo.packGptHeader_eq, get_fillFront hbs hi]

theorem HeaderOf.fits (hh : HeaderOf nsectors disk entries h lba) (hlba : lba < nsectors)
    (hmax : nsectors ≤ u64Max) (hlen : entries.length ≤ 128) : h.Fits := by
  have hu : u64Max < 2 ^ 64 := by decide
  refine ⟨?_, ?_, ?_, ?_, ?_⟩
  · rw [hh.myLba]
    omega
  · have := hh.inside
    omega
  · rw [hh.partCount]
    omega
  · rw [hh.partSize]
    decide
  · rw [hh.crc]
    exact crc32Ieee_lt _

theorem HeaderOf.tryGpt (hh : HeaderOf nsectors disk entries h lba) (hlba : lba < nsectors)
    (hbs : 512 ≤ bs) (hmax : nsectors ≤ u64Max) (hcount : 1 ≤ entries.length ∧ entries.length ≤ 128)
    (hused : ∀ e ∈ entries, e.Used → e.first ≤ e.last ∧ e.last < nsectors)
    (hroom : entries.countP (fun e => e.Used) ≤ maxParts) (hserves : Serves read nsectors disk)
    (hm : entries.length * gptEntrySize ≤ m) (usedBackup : Bool) (w : Work n m) :
    (tryGpt nsectors bs read lba usedBackup).wp
      (fun t _ => t = ⟨.gpt usedBackup, usedParts entries 0⟩) (fun _ _ => False) w := by
  have hread := tryGpt_eq (m := m) hserves hbs hmax (hh.fits hlba hmax hcount.2) hlba
    (hh.startsWith hbs) (hh.myLba ▸ hlba) hh.partSize (hh.partCount ▸ hcount) (hh.partCount ▸ hm)
    (hh.partCount ▸ hh.inside) usedBackup w
  rw [hh.partCount, hh.array, piecesOf_arrayBytes,
    parseGptEntries_used hmax entries hused 0 (by omega) _ (by simpa using hroom), hh.crc] at hread
  exact Eff.wp_mono hread (fun t _ ht => ht.2) fun _ _ hne => hne rfl

theorem tryGpt_bad_header (hserves : Serves read nsectors disk) (hbs : 512 ≤ bs)
    (hlba : lba < nsectors) (hbad : ¬ HeaderCrcMatches (disk lba)) (usedBackup : Bool)
    (w : Work n m) :
    (tryGpt nsectors bs read lba usedBackup).wp (fun _ _ => False) (fun _ _ => True) w := by
  unfold tryGpt
  rw [Eff.wp_bind]
  refine Eff.wp_require_of (fun _ => ?_) fun _ => trivial
  rw [Eff.wp_bind]
  refine wp_readSector_serves hserves hlba fun b hb => ?_
  rw [Eff.wp_bind, Eff.wp_get]
  dsimp only
  rw [Eff.wp_bind]
  refine Eff.wp_require_of (fun hok => ?_) fun _ => trivial
  obtain ⟨size, stored, nent, hgood⟩ := headerOk_iff.mp hok
  have hself : StartsWith (disk lba) (disk lba) := ⟨Nat.le_refl _, fun _ _ => rfl⟩
  refine absurd ⟨?_, size, stored, ?_, ?_, hgood.size_ge, Nat.le_trans hgood.size_le.1 hbs, ?_⟩ hbad
  · rw [hself.field (by omega), ← hb.field (by omega), hgood.sig]
  · rw [hself.r32 (by omega), ← hb.r32 (by omega), hgood.size_eq]
  · rw [hself.r32 (by omega), ← hb.r32 (by omega), hgood.stored_eq]
  · rw [← hgood.crc]
    have hfront : first size (disk lba) = first size b := by
      funext i
      have := hgood.size_le
      exact (hb.get_eq i (by omega)).symm
    rw [hfront]

theorem wp_parse_protective (hserves : Serves read nsectors disk) (hbs : 512 ≤ bs) (hn : bs ≤ n)
    (hlast : 1 < nsectors - 1) (hmbr : ∃ buf, disk 0 = packProtectiveMbr buf nsectors)
    {Q : Table → Work n m → Prop} {w : Work n m}
    (h : ∀ w, (tryGpt nsectors bs read 1 false).wp Q
      (fun _ w' => (tryGpt nsectors bs read (nsectors - 1) true).wp Q (fun _ _ => False) w') w) :
    (parse nsectors bs read).wp Q (fun _ _ => False) w := by
  obtain ⟨buf, hbuf⟩ := hmbr
  unfold parse
  rw [Eff.wp_bind]
  refine Eff.wp_require_of (fun _ => ?_) fun hneg => hneg ⟨by omega, hn⟩
  rw [Eff.wp_bind]
  refine Eff.wp_require_of (fun _ => ?_) fun hneg => hneg (by omega)
  rw [Eff.wp_bind]
  refine wp_readSector_serves hserves (by omega) fun b hb => ?_
  have hstarts : StartsWith b (protectiveSector nsectors) := by
    refine ⟨Nat.le_trans hbs hn, fun i hi => ?_⟩
    rw [hb.get_eq i (by omega), hbuf, packProtectiveMbr_eq (by omega), get_fillFront hbs hi]
  rw [Eff.wp_bind, Eff.wp_get]
  dsimp only
  rw [Eff.wp_ite, if_pos (isProtective_packed hstarts), Eff.wp_bind]
  refine Eff.wp_require_of (fun _ => ?_) fun hneg => hneg (by omega)
  rw [Eff.wp_bind, Eff.wp_attempt]
  refine Eff.wp_mono (h _) (fun t w' hQ => hQ) fun _ w' hbak => ?_
  dsimp only
  rw [Eff.wp_bind, Eff.wp_attempt]
  exact Eff.wp_mono hbak (fun t w'' hQ => hQ) fun _ _ => False.elim

theorem HeaderOf.congr (hh : HeaderOf nsectors disk entries h lba) (hbs : 0 < bs)
    (hsec : disk' lba = disk lba) (harray : ∀ l, h.InArray bs l → disk' l = disk l) :
    HeaderOf nsectors disk' entries h lba where
  written := by
    rw [hsec]
    exact hh.written
  myLba := hh.myLba
  partCount := hh.partCount
  partSize := hh.partSize
  crc := hh.crc
  array := by
    rw [← hh.array]
    refine List.map_congr_left fun i hi => ?_
    have hlt : i / bs < sectorsFor (entries.length * gptEntrySize) bs := by
      have hi' := List.mem_range.mp hi
      exact (Nat.div_lt_iff_lt_mul hbs).mpr (Nat.lt_of_lt_of_le hi' (le_sectorsFor_mul _ hbs))
    rw [harray _ ⟨Nat.le_add_right _ _, by rw [hh.partCount]; omega⟩]
  inside := hh.inside

/-- A GPT that was written reads back as its used entries; and where the primary header or array is
changed so that its checksum does not match, the backup gives the same partitions. -/
theorem gpt_round_trip (h : GptDisk nsectors disk entries pri bak) (hn : bs ≤ n)
    (hm : entries.length * gptEntrySize ≤ m) (buf : Buf n) (scratch : Buf m) :
    (∀ read : Reader n, Serves read nsectors disk →
      (parse nsectors bs read (.start buf scratch)).1 = .ok ⟨.gpt false, usedParts entries 0⟩) ∧
    ∀ disk' : Nat → Buf bs, (∀ lba, lba ≠ 1 → ¬ pri.InArray bs lba → disk' lba = disk lba) →
      (¬ HeaderCrcMatches (disk' 1) ∨ disk' 1 = disk 1 ∧
        entriesCrc (arrayOn disk' pri.partLba (entries.length * gptEntrySize)) ≠ pri.entriesCrc) →
      ∀ read : Reader n, Serves read nsectors disk' →
        (parse nsectors bs read (.start buf scratch)).1 = .ok ⟨.gpt true, usedParts entries 0⟩ := by
  have hlast := h.last
  have hbs := h.sector
  refine ⟨fun read hserves => ?_, fun disk' hsame hbad read hserves => ?_⟩
  · refine Eff.fst_of_wp (wp_parse_protective hserves hbs hn hlast h.mbr fun w => ?_)
    exact Eff.wp_mono (h.primary.tryGpt (by omega) hbs h.sectors h.count h.used h.room hserves hm
      false w) (fun _ _ ht => ht) fun _ _ => False.elim
  · have h0 : disk' 0 = disk 0 :=
      hsame 0 (by decide) fun hin => (h.primary_apart 0 hin).1 rfl
    have hbackup : HeaderOf nsectors disk' entries bak (nsectors - 1) := by
      refine h.backup.congr (by omega) ?_ fun l hl => ?_
      · exact hsame _ (by omega) fun hin => (h.primary_apart _ hin).2.2 rfl
      · obtain ⟨-, h1, -, hpri⟩ := h.backup_apart l hl
        exact hsame l h1 hpri
    have hfail : ∀ w : Work n m, (tryGpt nsectors bs read 1 false).wp (fun _ _ => False)
        (fun _ _ => True) w := by
      intro w
      rcases hbad with hcrc | ⟨h1, hcrc⟩
      · exact tryGpt_bad_header hserves hbs (by omega) hcrc false w
      · -- the header is as it was written, and its array no longer has the checksum it stores
        have hp := h.primary
        have hread := tryGpt_eq (m := m) hserves hbs h.sectors
          (hp.fits (by omega) h.sectors h.count.2) (by omega) (h1 ▸ hp.startsWith hbs)
          (by rw [hp.myLba]; omega) hp.partSize (hp.partCount ▸ h.count) (hp.partCount ▸ hm)
          (hp.partCount ▸ hp.inside) false w
        rw [hp.partCount] at hread
        exact Eff.wp_mono hread (fun _ _ ht => hcrc ht.1) fun _ _ _ => trivial
    refine Eff.fst_of_wp (wp_parse_protective hserves hbs hn hlast (h0 ▸ h.mbr) fun w => ?_)
    refine Eff.wp_mono (hfail w) (fun _ _ => False.elim) fun _ w' _ => ?_
    exact hbackup.tryGpt (by omega) hbs h.sectors h.count h.used h.room hserves hm true w'

end

def smallEntry (first last : Nat) : GptEntryInfo :=
  ⟨fun _ => 1, .zero, first, last, ['a']⟩

def unusedEntry : GptEntryInfo :=
  ⟨.zero, .zero, 0, 0, []⟩

def smallEntries : List GptEntryInfo :=
  [smallEntry 4 5, unusedEntry, smallEntry 6 6, unusedEntry, smallEntry 7 7]

def smallHeader (myLba altLba partLba : Nat) : GptHeaderInfo :=
  ⟨myLba, altLba, 4, 7, .zero, partLba, 5, gptEntrySize, entriesCrc (arrayBytes smallEntries)⟩

/-- Sector `k` of the array. -/
def smallSector (k : Nat) : Buf 512 :=
  fun i => (arrayBytes smallEntries).getD (512 * k + i) 0

/-- A disk of twelve sectors with three partitions, its array in sectors 2 and 3 and again in
sectors 8 and 9. -/
def smallDisk : Nat → Buf 512
  | 0 => packProtectiveMbr .zero 12
  | 1 => packGptHeader .zero (smallHeader 1 11 2)
  | 2 | 8 => smallSector 0
  | 3 | 9 => smallSector 1
  | 11 => packGptHeader .zero (smallHeader 11 1 8)
  | _ => .zero

theorem arrayOn_smallDisk {lba : Nat} (h₀ : smallDisk lba = smallSector 0)
    (h₁ : smallDisk (lba + 1) = smallSector 1) :
    arrayOn smallDisk lba 640 = arrayBytes smallEntries := by
  have hsector : ∀ k < 2, smallDisk (lba + k) = smallSector k := fun k hk => by
    obtain rfl | rfl : k = 0 ∨ k = 1 := by omega
    · exact h₀
    · exact h₁
  have hlen : (arrayBytes smallEntries).length = 640 := by
    simp only [arrayBytes, List.length_flatMap, List.length_ofFn]
    rfl
  apply List.ext_getElem
  · rw [hlen, arrayOn, List.length_map, List.length_range]
  · intro i _ hi
    have hmod : i % 512 < 512 := Nat.mod_lt _ (by decide)
    simp only [arrayOn, List.getElem_map, List.getElem_range, hsector (i / 512) (by omega), Buf.get,
      dif_pos hmod, smallSector, Nat.div_add_mod, List.getD_eq_getElem _ _ hi]

theorem smallDisk_gpt :
    GptDisk 12 smallDisk smallEntries (smallHeader 1 11 2) (smallHeader 11 1 8) where
  sector := Nat.le_refl _
  sectors := by decide
  count := by decide
  used := by decide
  room := by decide
  mbr := ⟨.zero, rfl⟩
  primary := ⟨⟨.zero, rfl⟩, rfl, rfl, rfl, rfl, arrayOn_smallDisk rfl rfl, by decide⟩
  backup := ⟨⟨.zero, rfl⟩, rfl, rfl, rfl, rfl, arrayOn_smallDisk rfl rfl, by decide⟩
  last := by decide
  primary_apart lba h := by
    have h₁ : 2 ≤ lba := h.1
    have h₂ : lba < 2 + 2 := h.2
    omega
  backup_apart lba h := by
    have h₁ : 8 ≤ lba := h.1
    have h₂ : lba < 8 + 2 := h.2
    refine ⟨by omega, by omega, by omega, fun hpri => ?_⟩
    have h₃ : lba < 2 + 2 := hpri.2
    omega

def smallParts : List Part :=
  [⟨1, 4, 2, .gpt (List.replicate 16 1)⟩, ⟨3, 6, 1, .gpt (List.replicate 16 1)⟩,
    ⟨5, 7, 1, .gpt (List.replicate 16 1)⟩]

/-- The same partitions from the disk, and from the backup where the primary header is wiped. -/
theorem gpt_round_trip_small :
    (parse 12 512 (fun _ lba _ => (true, smallDisk lba)) (.start .zero (.zero : Buf 640))).1 =
        .ok ⟨.gpt false, smallParts⟩ ∧
      (parse 12 512 (fun _ lba _ => (true, Function.update smallDisk 1 .zero lba))
        (.start .zero (.zero : Buf 640))).1 = .ok ⟨.gpt true, smallParts⟩ := by
  have hserves : ∀ d : Nat → Buf 512, Serves (fun _ lba _ => (true, d lba)) 12 d :=
    fun d k lba buf _ => ⟨rfl, Nat.le_refl _, fun _ _ => rfl⟩
  obtain ⟨hwhole, hdamaged⟩ :=
    gpt_round_trip smallDisk_gpt (Nat.le_refl 512) (Nat.le_refl 640) .zero .zero
  refine ⟨hwhole _ (hserves smallDisk), ?_⟩
  refine hdamaged (Function.update smallDisk 1 .zero) ?_ (.inl ?_) _ (hserves _)
  · exact fun lba h1 _ => Function.update_of_ne h1 _ _
  · rw [Function.update_self]
    exact fun hcrc => absurd hcrc.1 (by decide)

def topEntry : GptEntryInfo :=
  ⟨fun _ => 1, .zero, 1, u64Max, []⟩

def topHeader : GptHeaderInfo :=
  ⟨1, u64Max - 1, 3, u64Max - 3, .zero, 2, 1, gptEntrySize, entriesCrc (arrayBytes [topEntry])⟩

/-- A GPT on a disk of `2 ^ 64 - 1` sectors, with one entry from sector 1 to the last number. -/
def topDisk : Nat → Buf 512
  | 0 => packProtectiveMbr .zero u64Max
  | 1 => packGptHeader .zero topHeader
  | _ => packGptEntry .zero topEntry

/-- The end of the entry saturates where it is checked, and the partition that comes out ends one
sector past the disk. -/
theorem parse_past_last_sector :
    (parse u64Max 512 (fun _ lba _ => (true, topDisk lba)) (.start .zero (.zero : Buf 128))).1 =
        .ok ⟨.gpt false, [⟨1, 1, u64Max, .gpt (List.replicate 16 1)⟩]⟩ ∧
      ¬ Part.Inside u64Max ⟨1, 1, u64Max, .gpt (List.replicate 16 1)⟩ := by
  refine ⟨?_, fun h => absurd h.2 (by decide)⟩
  have hfit : topHeader.Fits :=
    ⟨by decide, by decide, by decide, by decide, crc32Ieee_lt _⟩
  have hsec : StartsWith (topDisk 1) topHeader.packed := by
    refine ⟨Nat.le_refl _, fun i hi => ?_⟩
    rw [topDisk, GptHeaderInfo.packGptHeader_eq, get_fillFront (Nat.le_refl _) hi]
  have hmbr : ∃ buf, topDisk 0 = packProtectiveMbr buf u64Max := ⟨.zero, rfl⟩
  have harray : arrayOn topDisk 2 128 = arrayBytes [topEntry] := by decide +kernel
  have hentries : parseGptEntries u64Max (piecesOf (arrayBytes [topEntry]) 1) 0 ⟨.gpt false, []⟩ =
      ⟨.gpt false, [⟨1, 1, u64Max, .gpt (List.replicate 16 1)⟩]⟩ := by decide +kernel
  have hlast : 1 < u64Max - 1 := by decide
  have hin : topHeader.partLba + sectorsFor (topHeader.partCount * gptEntrySize) 512 ≤ u64Max := by
    decide
  have hmax : u64Max ≤ u64Max := Nat.le_refl _
  -- the number of sectors stays a name from here on
  generalize hN : u64Max = N at *
  have hserves : Serves (fun _ lba _ => (true, topDisk lba)) N topDisk :=
    fun k lba buf _ => ⟨rfl, Nat.le_refl _, fun _ _ => rfl⟩
  refine Eff.fst_of_wp (wp_parse_protective hserves (Nat.le_refl 512) (Nat.le_refl 512) hlast hmbr
    fun w => ?_)
  refine Eff.wp_mono (tryGpt_eq hserves (Nat.le_refl 512) (hN ▸ hmax) hfit (by omega) hsec ?_ rfl
    (by decide) (Nat.le_refl 128) hin false w) (fun t _ ht => ?_) fun _ _ hne => ?_
  · show 1 < N
    omega
  · rw [← hentries, ← harray]
    exact ht.2
  · exact absurd (congrArg crc32Ieee harray) hne

end VibeOS.Block
