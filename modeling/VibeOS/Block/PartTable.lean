import VibeOS.Block.Part
import VibeOS.Block.PartSafe

/-!
What the partitions of a parsed table are. The entries of a GPT are numbered by their places; the
primary partitions of an MBR by their slots, and the logical ones from 5 on, over all extended
partitions of the disk. A chain of EBRs is read into the one sector buffer, so the record of the
reads says which sectors it ran through. An entry of a GPT that ends at the last sector number a
word can hold passes the check of a disk of as many sectors, because the sum that is checked
saturates; on every smaller disk the check is exact.
-/
namespace VibeOS.Block
open Lib

variable {n m nsectors sectorSize : Nat} {read : Reader n} {t t' : Table} {p : Part}

/-- The partition is not empty and lies on the disk. -/
def Part.Inside (nsectors : Nat) (p : Part) : Prop :=
  0 < p.nsectors ∧ p.startLba + p.nsectors ≤ nsectors

theorem pushPart_eq_some : pushPart t p = some t' ↔
    t.parts.length < maxParts ∧ t' = { t with parts := t.parts ++ [p] } := by
  unfold pushPart
  split
  · rename_i h
    rw [Option.some.injEq]
    exact ⟨fun e => ⟨h, e.symm⟩, fun e => e.2.symm⟩
  · rename_i h
    exact ⟨nofun, fun e => absurd e.1 h⟩

/-- The entry begins past sector 0 and ends at the last sector number a word can hold. -/
def EndsAtMax (e : Buf 128) : Prop :=
  ∃ first, 0 < first ∧ r64 e 32 = some first ∧ r64 e 40 = some u64Max

/-- The partition of a GPT entry: not empty, and past the end of the disk only if the entry ends at
the last sector number a word can hold and the disk has as many sectors. -/
def EntryPart (nsectors : Nat) (e : Buf 128) (p : Part) : Prop :=
  0 < p.nsectors ∧ (nsectors ≤ u64Max →
    (p.startLba + p.nsectors ≤ nsectors ↔ nsectors < u64Max ∨ ¬ EndsAtMax e))

theorem r64_le {b : Buf n} {o v : Nat} (h : r64 b o = some v) : v ≤ u64Max := by
  obtain ⟨l, hl, rfl⟩ := Option.map_eq_some_iff.mp h
  unfold field at hl
  split at hl
  · cases hl
    have hlt := ofLE_lt (b.slice o 8)
    rw [Buf.length_slice] at hlt
    exact Nat.le_sub_one_of_lt hlt
  · cases hl

theorem entryPart_spec {index first last : Nat} {guid : List UInt8} {e : Buf 128}
    (hfirst : r64 e 32 = some first) (hlast : r64 e 40 = some last)
    (h : entryPart index nsectors guid first last = some p) :
    p.index = index ∧ EntryPart nsectors e p := by
  have hends : EndsAtMax e ↔ 0 < first ∧ last = u64Max := by
    simp [EndsAtMax, hfirst, hlast]
  have hle := r64_le hlast
  unfold entryPart at h
  split at h
  · cases h
  · rename_i horder
    dsimp only at h
    split at h
    · cases h
    · rename_i hstop
      obtain rfl := Option.some.inj h
      rw [not_or, Nat.not_lt] at hstop
      refine ⟨rfl, Nat.pos_of_ne_zero hstop.1, fun hn => ?_⟩
      rw [hends]
      simp only [saturatingAdd, u64Max] at hstop hle hn ⊢
      omega

/-- Partitions under ascending numbers above `i`, each the one of the entry at its place. -/
def Numbered (nsectors : Nat) (entry : Nat → Buf 128) (i : Nat) (l : List Part) : Prop :=
  (∀ p ∈ l, i < p.index ∧ EntryPart nsectors (entry (p.index - 1)) p) ∧
    l.Pairwise fun p q => p.index < q.index

section
variable {entry : Nat → Buf 128} {i : Nat} {l : List Part}

theorem Numbered.nil : Numbered nsectors entry i [] :=
  ⟨nofun, .nil⟩

theorem Numbered.of_succ (h : Numbered nsectors entry (i + 1) l) : Numbered nsectors entry i l :=
  ⟨fun p hp => ⟨Nat.lt_of_succ_lt (h.1 p hp).1, (h.1 p hp).2⟩, h.2⟩

theorem Numbered.cons (h : Numbered nsectors entry (i + 1) l) (hindex : p.index = i + 1)
    (hp : EntryPart nsectors (entry i) p) : Numbered nsectors entry i (p :: l) := by
  have hplace : p.index - 1 = i := by omega
  refine ⟨List.forall_mem_cons.mpr ⟨⟨by omega, hplace ▸ hp⟩, h.of_succ.1⟩,
    .cons (fun q hq => ?_) h.2⟩
  rw [hindex]
  exact (h.1 q hq).1

theorem parseGptEntries_spec (nsectors : Nat) (entry : Nat → Buf 128) (k i : Nat) (t : Table) :
    ∃ l, parseGptEntries nsectors ((List.range' i k).map entry) i t =
      { t with parts := t.parts ++ l } ∧ Numbered nsectors entry i l := by
  have hstop : ∀ (i : Nat) (t : Table), ∃ l, t = { t with parts := t.parts ++ l } ∧
      Numbered nsectors entry i l :=
    fun i t => ⟨[], by rw [List.append_nil], .nil⟩
  induction k generalizing i t with
  | zero => exact hstop i t
  | succ k ih =>
    rw [List.range'_succ, List.map_cons]
    unfold parseGptEntries
    split
    · split
      · rename_i guid first last _ hfirst hlast
        cases hentry : entryPart (i + 1) nsectors guid first last with
        | none =>
          obtain ⟨l, heq, hl⟩ := ih (i + 1) t
          exact ⟨l, heq, hl.of_succ⟩
        | some p =>
          obtain ⟨hindex, hpart⟩ := entryPart_spec hfirst hlast hentry
          dsimp only
          cases hpush : pushPart t p with
          | none => exact hstop i t
          | some t' =>
            obtain ⟨-, rfl⟩ := pushPart_eq_some.mp hpush
            obtain ⟨l, heq, hl⟩ := ih (i + 1) { t with parts := t.parts ++ [p] }
            refine ⟨p :: l, heq.trans ?_, hl.cons hindex hpart⟩
            simp
      · exact hstop i t
    · exact hstop i t

end

theorem tryGpt_returns (headerLba : Nat) (usedBackup : Bool) :
    Eff.Returns (fun t w => t.origin = .gpt usedBackup ∧
      Numbered nsectors (entryAt w.scratch) 0 t.parts)
      (tryGpt (m := m) nsectors sectorSize read headerLba usedBackup) := by
  refine .bind fun _ => .bind fun _ => .bind fun _ => .bind fun _ => .bind fun _ => .bind fun _ =>
    .bind fun _ => .bind fun got => fun w => ?_
  -- nothing after this load of the scratch buffer changes it
  rw [Eff.wp_bind, Eff.wp_get]
  dsimp only
  rw [Eff.wp_bind]
  refine Eff.wp_ofExcept_of (fun _ _ => ?_) fun _ _ => trivial
  rw [Eff.wp_bind]
  refine Eff.wp_require_of (fun _ => ?_) fun _ => trivial
  obtain ⟨l, heq, hl⟩ := parseGptEntries_spec nsectors (entryAt w.scratch) got 0
    ⟨.gpt usedBackup, []⟩
  rw [List.range_eq_range', heq]
  exact ⟨rfl, hl⟩

/-- The EBRs read along the chain of the extended partition at `extStart`, each with what it held,
and the sector the last one leads to. -/
inductive EbrChain (extStart : Nat) : List (Nat × Buf n) → Nat → Prop where
  | start : EbrChain extStart [] extStart
  | next {chain : List (Nat × Buf n)} {ebr : Nat} {sector : Buf n} {nsys : UInt8} {nrel c : Nat} :
      EbrChain extStart chain ebr → mbrEntry sector 1 = some (nsys, nrel, c) →
        isExtended nsys = true → EbrChain extStart (chain ++ [(ebr, sector)]) (extStart + nrel)

/-- An EBR of the chain of the extended partition names `p`, which lies inside that partition. -/
structure LogicalOf (log : List (Nat × Buf n)) (ext : UInt8 × Nat × Nat) (p : Part) : Prop where
  named : ∃ chain ebr sector sys rel, EbrChain ext.2.1 chain ebr ∧
    chain ++ [(ebr, sector)] <:+: log ∧ mbrEntry sector 0 = some (sys, rel, p.nsectors) ∧
      p.startLba = ebr + rel ∧ p.kind = .mbr sys
  inside : ext.2.1 ≤ p.startLba ∧ p.startLba + p.nsectors ≤ ext.2.1 + ext.2.2

theorem LogicalOf.mono {log log' : List (Nat × Buf n)} {ext : UInt8 × Nat × Nat}
    (h : LogicalOf log ext p) (hlog : log <+: log') : LogicalOf log' ext p := by
  obtain ⟨chain, ebr, sector, sys, rel, h₁, h₂, h₃⟩ := h.named
  exact ⟨⟨chain, ebr, sector, sys, rel, h₁, h₂.trans hlog.isInfix, h₃⟩, h.inside⟩

/-- The partitions of an MBR before slot `slot` and with `logical` logical ones so far. -/
structure SlotInv (nsectors slot logical : Nat) (t : Table) : Prop where
  origin : t.origin = .mbr
  slot_le : slot ≤ 5
  inside : ∀ p ∈ t.parts, p.Inside nsectors
  index : ∀ p ∈ t.parts, p.index < slot ∨ 5 ≤ p.index ∧ p.index < 5 + logical
  distinct : t.parts.Pairwise fun p q => p.index ≠ q.index

section
variable {slot logical : Nat}

theorem SlotInv.mono (h : SlotInv nsectors slot logical t) {slot' logical' : Nat}
    (hs : slot ≤ slot') (hs' : slot' ≤ 5) (hl : logical ≤ logical') :
    SlotInv nsectors slot' logical' t where
  origin := h.origin
  slot_le := hs'
  inside := h.inside
  index p hp := by
    have := h.index p hp
    omega
  distinct := h.distinct

theorem SlotInv.push (h : SlotInv nsectors slot logical t) {slot' logical' : Nat}
    (hinside : p.Inside nsectors) (hs : slot ≤ slot') (hs' : slot' ≤ 5) (hl : logical ≤ logical')
    (hindex : slot ≤ p.index ∧ p.index < slot' ∨ p.index = 5 + logical ∧ logical < logical') :
    SlotInv nsectors slot' logical' { t with parts := t.parts ++ [p] } where
  origin := h.origin
  slot_le := hs'
  inside := List.forall_mem_append.mpr ⟨h.inside, List.forall_mem_singleton.mpr hinside⟩
  index := by
    refine List.forall_mem_append.mpr ⟨fun q hq => ?_, List.forall_mem_singleton.mpr ?_⟩
    · have := h.index q hq
      omega
    · omega
  distinct := by
    refine List.pairwise_append.mpr ⟨h.distinct, List.pairwise_singleton .., fun q hq r hr => ?_⟩
    obtain rfl := List.mem_singleton.mp hr
    have := h.index q hq
    have := h.slot_le
    omega

theorem takeLogical_spec {extStart extEnd ebr : Nat} {e : UInt8 × Nat × Nat} {t' : Table}
    {logical' : Nat} {go : Bool}
    (h : takeLogical nsectors extStart extEnd ebr e t logical = (t', logical', go))
    (hinv : SlotInv nsectors slot logical t) :
    SlotInv nsectors slot logical' t' ∧ ∀ p ∈ t'.parts, p ∈ t.parts ∨
      p.startLba = ebr + e.2.1 ∧ p.nsectors = e.2.2 ∧ p.kind = .mbr e.1 ∧ extStart ≤ p.startLba ∧
        p.startLba + p.nsectors ≤ extEnd := by
  obtain ⟨sys, rel, count⟩ := e
  have hsame : ∀ logical', logical ≤ logical' →
      SlotInv nsectors slot logical' t ∧ ∀ p ∈ t.parts, p ∈ t.parts ∨
        p.startLba = ebr + rel ∧ p.nsectors = count ∧ p.kind = .mbr sys ∧ extStart ≤ p.startLba ∧
          p.startLba + p.nsectors ≤ extEnd :=
    fun _ hl => ⟨hinv.mono (Nat.le_refl _) hinv.slot_le hl, fun _ => .inl⟩
  unfold takeLogical at h
  dsimp only at h
  split at h
  · rename_i hdata
    cases hstart : checkedAdd ebr rel with
    | none =>
      rw [hstart] at h
      cases h
      exact hsame _ (Nat.le_refl _)
    | some start =>
      obtain ⟨rfl, -⟩ := checkedAdd_eq_some.mp hstart
      rw [hstart] at h
      dsimp only at h
      cases hstop : checkedAdd (ebr + rel) count with
      | none =>
        rw [hstop] at h
        cases h
        exact hsame _ (Nat.le_refl _)
      | some stop =>
        obtain ⟨rfl, -⟩ := checkedAdd_eq_some.mp hstop
        rw [hstop] at h
        dsimp only at h
        split at h
        · cases h
          exact hsame _ (Nat.le_refl _)
        · rename_i hin
          cases hidx : logicalIndex logical with
          | none =>
            rw [hidx] at h
            cases h
            exact hsame _ (Nat.le_refl _)
          | some index =>
            have hindex : index = logical + 5 := by
              unfold logicalIndex at hidx
              split at hidx
              · exact (Option.some.inj hidx).symm
              · cases hidx
            rw [hidx] at h
            dsimp only at h
            cases hpush : pushPart t ⟨index, ebr + rel, count, .mbr sys⟩ with
            | none =>
              rw [hpush] at h
              cases h
              exact hsame _ (Nat.le_succ _)
            | some t'' =>
              obtain ⟨-, rfl⟩ := pushPart_eq_some.mp hpush
              rw [hpush] at h
              cases h
              refine ⟨hinv.push ?_ (Nat.le_refl _) hinv.slot_le (Nat.le_succ _) ?_, ?_⟩
              · exact ⟨Nat.pos_of_ne_zero hdata.2.1, by simp only; omega⟩
              · exact .inr ⟨by simp only; omega, Nat.lt_succ_self _⟩
              · refine List.forall_mem_append.mpr ⟨fun _ => .inl, ?_⟩
                refine List.forall_mem_singleton.mpr (.inr ⟨rfl, rfl, rfl, ?_, ?_⟩)
                · simp only
                  omega
                · simp only
                  omega
  · cases h
    exact hsame _ (Nat.le_refl _)

theorem wp_readSector {lba : Nat} {Q : Unit → Work n m → Prop} {E : PartError → Work n m → Prop}
    {w : Work n m}
    (hok : ∀ b, Q () { w with log := w.log ++ [(lba, b)], buf := b })
    (herr : ∀ b, E .truncated { w with log := w.log ++ [(lba, b)], buf := b }) :
    (readSector read lba).wp Q E w := by
  unfold Eff.wp readSector
  dsimp only
  split
  · rename_i h
    obtain ⟨-, rfl⟩ := Prod.mk.inj h
    exact hok _
  · rename_i e w' h
    obtain ⟨h₁, rfl⟩ := Prod.mk.inj h
    split at h₁
    · cases h₁
    · cases h₁
      exact herr _

theorem nextEbr_chain {extStart extEnd ebr next : Nat} {sector : Buf n} {chain : List (Nat × Buf n)}
    (h : nextEbr nsectors extStart extEnd ebr sector = some next)
    (hchain : EbrChain extStart chain ebr) : EbrChain extStart (chain ++ [(ebr, sector)]) next := by
  unfold nextEbr at h
  obtain ⟨⟨nsys, nrel, c⟩, hentry, h⟩ := Option.bind_eq_some_iff.mp h
  dsimp only at h
  split at h
  · cases h
  rename_i hsys
  obtain ⟨next', hadd, h⟩ := Option.bind_eq_some_iff.mp h
  split at h
  · cases h
  obtain rfl := Option.some.inj h
  obtain ⟨rfl, -⟩ := checkedAdd_eq_some.mp hadd
  refine .next hchain hentry ?_
  cases hb : isExtended nsys with
  | true => rfl
  | false => exact absurd (.inr hb) hsys

/-- What the walk of an extended partition's chain from state `w` adds to the table. -/
structure Walked (nsectors slot : Nat) (ext : UInt8 × Nat × Nat) (t : Table) (w : Work n m)
    (r : Table × Nat) (w' : Work n m) : Prop where
  inv : SlotInv nsectors slot r.2 r.1
  log : w.log <+: w'.log
  parts : ∀ p ∈ r.1.parts, p ∈ t.parts ∨ LogicalOf w'.log ext p

theorem Walked.stop {ext : UInt8 × Nat × Nat} {w w' : Work n m}
    (hinv : SlotInv nsectors slot logical t) (h : w.log <+: w'.log) :
    Walked nsectors slot ext t w (t, logical) w' :=
  ⟨hinv, h, fun _ => .inl⟩

theorem takeLogical_walked {ext : UInt8 × Nat × Nat} {extEnd ebr : Nat} {w : Work n m}
    {chain pre : List (Nat × Buf n)} {sector : Buf n} {e : UInt8 × Nat × Nat} {t' : Table}
    {logical' : Nat} {go : Bool} (hext : extEnd ≤ ext.2.1 + ext.2.2)
    (hchain : EbrChain ext.2.1 chain ebr) (hlog : w.log = pre ++ chain)
    (hentry : mbrEntry sector 0 = some e) (hinv : SlotInv nsectors slot logical t)
    (h : takeLogical nsectors ext.2.1 extEnd ebr e t logical = (t', logical', go)) :
    Walked nsectors slot ext t w (t', logical')
      { w with log := w.log ++ [(ebr, sector)], buf := sector } := by
  obtain ⟨hinv', hparts⟩ := takeLogical_spec h hinv
  refine ⟨hinv', List.prefix_append _ _, fun p hp => (hparts p hp).imp_right ?_⟩
  rintro ⟨h₁, h₂, h₃, h₄, h₅⟩
  refine ⟨⟨chain, ebr, sector, e.1, e.2.1, hchain, ?_, h₂ ▸ hentry, h₁, h₃⟩, h₄, by omega⟩
  rw [hlog, List.append_assoc]
  exact (List.suffix_append _ _).isInfix

theorem walkEbrs_spec (ext : UInt8 × Nat × Nat) {extEnd : Nat} (hext : extEnd ≤ ext.2.1 + ext.2.2)
    (depth ebr : Nat) (t : Table) (logical : Nat) (pre chain : List (Nat × Buf n))
    (hchain : EbrChain ext.2.1 chain ebr) (w : Work n m) (hlog : w.log = pre ++ chain)
    (hinv : SlotInv nsectors slot logical t) :
    (walkEbrs read nsectors ext.2.1 extEnd depth ebr t logical).wp
      (Walked nsectors slot ext t w) (fun _ w' => w.log <+: w'.log) w := by
  induction depth generalizing ebr t logical chain w with
  | zero => exact .stop hinv (List.prefix_refl _)
  | succ depth ih =>
    rw [walkEbrs, Eff.wp_ite]
    split
    · exact .stop hinv (List.prefix_refl _)
    rw [Eff.wp_bind, Eff.wp_attempt]
    refine wp_readSector (fun sector => ?_) fun b => .stop hinv (List.prefix_append _ _)
    have hpre : w.log <+: w.log ++ [(ebr, sector)] := List.prefix_append _ _
    dsimp only
    rw [Eff.wp_bind, Eff.wp_get]
    dsimp only
    rw [Eff.wp_ite]
    split
    · cases hentry : mbrEntry sector 0 with
      | none => exact .stop hinv hpre
      | some e =>
        dsimp only
        split
        · rename_i t' logical' htake
          exact takeLogical_walked hext hchain hlog hentry hinv htake
        · rename_i t' logical' htake
          have htaken := takeLogical_walked hext hchain hlog hentry hinv htake
          cases hnext : nextEbr nsectors ext.2.1 extEnd ebr sector with
          | none => exact htaken
          | some next =>
            have hrest := ih next t' logical' _ (nextEbr_chain hnext hchain)
              { w with log := w.log ++ [(ebr, sector)], buf := sector }
              (by rw [hlog, List.append_assoc]) htaken.inv
            refine Eff.wp_mono hrest (fun r w' h => ?_) fun _ w' h => hpre.trans h
            refine ⟨h.inv, hpre.trans h.log, fun p hp => ?_⟩
            rcases h.parts p hp with hold | hnew
            · exact (htaken.parts p hold).imp_right fun hl => hl.mono h.log
            · exact .inr hnew
    · exact .stop hinv hpre

/-- Every logical partition is one of an extended partition among `exts`. -/
def FromExtended (exts : List (UInt8 × Nat × Nat)) (log : List (Nat × Buf n)) (t : Table) : Prop :=
  ∀ p ∈ t.parts, 5 ≤ p.index → ∃ ext ∈ exts, isExtended ext.1 = true ∧ LogicalOf log ext p

theorem FromExtended.mono {exts : List (UInt8 × Nat × Nat)} {log log' : List (Nat × Buf n)}
    (h : FromExtended exts log t) (hlog : log <+: log') : FromExtended exts log' t := by
  intro p hp hidx
  obtain ⟨ext, hmem, hsys, hl⟩ := h p hp hidx
  exact ⟨ext, hmem, hsys, hl.mono hlog⟩

/-- What the slots from state `w` on make of the table. -/
structure Slotted (nsectors : Nat) (exts : List (UInt8 × Nat × Nat)) (w : Work n m) (t : Table)
    (w' : Work n m) : Prop where
  inv : ∃ logical, SlotInv nsectors 5 logical t
  log : w.log <+: w'.log
  logicals : FromExtended exts w'.log t

theorem Slotted.stop {exts : List (UInt8 × Nat × Nat)} {w : Work n m}
    (hinv : SlotInv nsectors slot logical t) (hfrom : FromExtended exts w.log t) :
    Slotted nsectors exts w t w :=
  ⟨⟨logical, hinv.mono hinv.slot_le (Nat.le_refl _) (Nat.le_refl _)⟩, List.prefix_refl _, hfrom⟩

theorem parseSlots_spec (exts slots : List (UInt8 × Nat × Nat)) (hsub : slots ⊆ exts) (slot : Nat)
    (t : Table) (logical : Nat) (w : Work n m) (hslot : slot + slots.length ≤ 5)
    (hinv : SlotInv nsectors slot logical t) (hfrom : FromExtended exts w.log t) :
    (parseSlots nsectors read slots slot t logical).wp (Slotted nsectors exts w)
      (fun _ w' => w.log <+: w'.log) w := by
  induction slots generalizing slot t logical w with
  | nil => exact .stop hinv hfrom
  | cons e slots ih =>
    obtain ⟨sys, start, count⟩ := e
    obtain ⟨hmem, hsub'⟩ := List.cons_subset.mp hsub
    rw [List.length_cons] at hslot
    have hskip := ih hsub' (slot + 1) t logical w (by omega)
      (hinv.mono (Nat.le_succ _) (by omega) (Nat.le_refl _)) hfrom
    rw [parseSlots, Eff.wp_ite]
    split
    · exact hskip
    rw [Eff.wp_ite]
    split
    · rename_i hext
      have hwalk : (parseLogical t nsectors read start count logical).wp
          (Walked nsectors slot (sys, start, count) t w) (fun _ w' => w.log <+: w'.log) w :=
        walkEbrs_spec (sys, start, count) (Nat.min_le_left _ _) maxEbrDepth start t logical w.log []
          .start w (List.append_nil _).symm hinv
      rw [Eff.wp_bind]
      refine Eff.wp_mono hwalk (fun r w' h => ?_) fun _ _ h => h
      have hfrom' : FromExtended exts w'.log r.1 := by
        intro p hp hidx
        rcases h.parts p hp with hold | hnew
        · exact hfrom.mono h.log p hold hidx
        · exact ⟨_, hmem, hext, hnew⟩
      refine Eff.wp_mono (ih hsub' (slot + 1) r.1 r.2 w' (by omega)
        (h.inv.mono (Nat.le_succ _) (by omega) (Nat.le_refl _)) hfrom') (fun t' w'' h' => ?_)
        fun _ _ h' => h.log.trans h'
      exact ⟨h'.inv, h.log.trans h'.log, h'.logicals⟩
    · rename_i hsys hext
      cases hadd : checkedAdd start count with
      | none => exact hskip
      | some stop =>
        obtain ⟨rfl, -⟩ := checkedAdd_eq_some.mp hadd
        dsimp only
        rw [Eff.wp_ite]
        split
        · exact hskip
        · rename_i hin
          cases hpush : pushPart t ⟨slot, start, count, .mbr sys⟩ with
          | none => exact .stop hinv hfrom
          | some t' =>
            obtain ⟨-, rfl⟩ := pushPart_eq_some.mp hpush
            have hinside : Part.Inside nsectors ⟨slot, start, count, .mbr sys⟩ :=
              ⟨by simp only; omega, by simp only; omega⟩
            have hinv' := hinv.push (p := ⟨slot, start, count, .mbr sys⟩) hinside
              (Nat.le_succ _) (by omega) (Nat.le_refl logical)
              (.inl ⟨Nat.le_refl _, Nat.lt_succ_self _⟩)
            have hfrom' : FromExtended exts w.log
                { t with parts := t.parts ++ [⟨slot, start, count, .mbr sys⟩] } := by
              intro p hp hidx
              rcases List.mem_append.mp hp with hp | hp
              · exact hfrom p hp hidx
              · obtain rfl := List.mem_singleton.mp hp
                simp only at hidx
                omega
            exact ih hsub' (slot + 1) _ logical w (by omega) hinv' hfrom'

end

/-- What the table of a run is that ended with `w`. -/
structure TableSafe (nsectors : Nat) (w : Work n m) (t : Table) : Prop where
  nonempty : ∀ p ∈ t.parts, 0 < p.nsectors
  /-- Of the partitions only those of a GPT whose entry ends at the last sector number a word can
  hold lie past the end, and only of a disk of as many sectors. -/
  inside : nsectors ≤ u64Max → ∀ p ∈ t.parts, (p.startLba + p.nsectors ≤ nsectors ↔
    nsectors < u64Max ∨ t.origin = .mbr ∨ ¬ EndsAtMax (entryAt w.scratch (p.index - 1)))
  distinct : t.parts.Pairwise fun p q => p.index ≠ q.index
  /-- A logical partition lies inside the extended one, of the four primary slots, whose chain
  named it. -/
  logical : t.origin = .mbr → ∀ p ∈ t.parts, 5 ≤ p.index →
    ∃ sector rest, w.log = (0, sector) :: rest ∧
      ∃ i < 4, ∃ ext, mbrEntry sector i = some ext ∧ isExtended ext.1 = true ∧ LogicalOf w.log ext p

theorem parseMbr_safe {sector : Buf n} (w : Work n m) (hlog : w.log = [(0, sector)])
    (hbuf : w.buf = sector) :
    (parseMbr nsectors read).wp (fun t w' => TableSafe nsectors w' t) (fun _ _ => True) w := by
  unfold parseMbr
  rw [Eff.wp_bind, Eff.wp_get]
  dsimp only
  rw [Eff.wp_bind, hbuf]
  cases hprim : primaries sector with
  | none => exact trivial
  | some prim =>
    obtain ⟨hlen, hentries⟩ := primaries_eq_some hprim
    have hinv : SlotInv nsectors 1 0 ⟨.mbr, []⟩ :=
      ⟨rfl, by decide, nofun, nofun, .nil⟩
    rw [Option.elim_some, Eff.wp_ofExcept]
    refine Eff.wp_mono (parseSlots_spec prim prim (List.Subset.refl _) 1 ⟨.mbr, []⟩ 0 w
      (by omega) hinv nofun) (fun t w' h => ?_) fun _ _ _ => trivial
    obtain ⟨logical, hinv'⟩ := h.inv
    refine ⟨fun p hp => (hinv'.inside p hp).1, fun _ p hp => ?_, hinv'.distinct,
      fun _ p hp hidx => ?_⟩
    · exact iff_of_true (hinv'.inside p hp).2 (.inr (.inl hinv'.origin))
    obtain ⟨rest, hrest⟩ := h.log
    obtain ⟨ext, hmem, hsys, hl⟩ := h.logicals p hp hidx
    obtain ⟨i, hi, hentry⟩ := hentries ext hmem
    exact ⟨sector, rest, by rw [← hrest, hlog]; rfl, i, hi, ext, hentry, hsys, hl⟩

theorem tryGpt_safe (headerLba : Nat) (usedBackup : Bool) (w : Work n m) :
    (tryGpt nsectors sectorSize read headerLba usedBackup).wp
      (fun t w' => TableSafe nsectors w' t) (fun _ _ => True) w := by
  refine Eff.wp_mono (tryGpt_returns headerLba usedBackup w) (fun t w' h => ?_) fun _ _ => id
  obtain ⟨horigin, hparts, hindex⟩ := h
  have hgpt : t.origin ≠ .mbr := by
    rw [horigin]
    nofun
  refine ⟨fun p hp => (hparts p hp).2.1, fun hn p hp => ?_, hindex.imp Nat.ne_of_lt,
    fun hmbr => absurd hmbr hgpt⟩
  rw [(hparts p hp).2.2 hn, or_iff_right hgpt]

theorem parse_tableSafe (buf : Buf n) (scratch : Buf m) :
    (parse nsectors sectorSize read).wp (fun t w' => TableSafe nsectors w' t) (fun _ _ => True)
      (.start buf scratch) := by
  unfold parse
  rw [Eff.wp_bind]
  refine Eff.wp_require_of (fun _ => ?_) fun _ => trivial
  rw [Eff.wp_bind]
  refine Eff.wp_require_of (fun _ => ?_) fun _ => trivial
  rw [Eff.wp_bind]
  refine wp_readSector (fun sector => ?_) fun _ => trivial
  rw [Eff.wp_bind, Eff.wp_get]
  dsimp only
  rw [Eff.wp_ite]
  split
  · rw [Eff.wp_bind]
    refine Eff.wp_require_of (fun _ => ?_) fun _ => trivial
    rw [Eff.wp_bind, Eff.wp_attempt]
    refine Eff.wp_mono (tryGpt_safe 1 false _) (fun t w' h => h) fun _ w' _ => ?_
    dsimp only
    rw [Eff.wp_bind, Eff.wp_attempt]
    exact Eff.wp_mono (tryGpt_safe (nsectors - 1) true w') (fun t w'' h => h) fun _ _ _ => trivial
  · rw [Eff.wp_bind]
    refine Eff.wp_require_of (fun _ => ?_) fun _ => trivial
    exact parseMbr_safe _ rfl rfl

/-- However the disk answers, and whatever it holds: the reads are bounded and on the disk, and the
partitions of a table that comes out are as `TableSafe` says. All of them lie on the disk exactly
when it has fewer sectors than a word can count, or no accepted entry of a GPT begins past sector 0
and ends at the last sector number of a word. -/
theorem parse_safe (nsectors sectorSize : Nat) (read : Reader n) (buf : Buf n) (scratch : Buf m)
    (r : Except PartError Table × Work n m)
    (hr : parse nsectors sectorSize read (.start buf scratch) = r) :
    r.2.log.length ≤ maxReads sectorSize ∧ (∀ e ∈ r.2.log, e.1 < nsectors) ∧
      ∀ t, r.1 = .ok t → TableSafe nsectors r.2 t ∧ (nsectors ≤ u64Max →
        ((∀ p ∈ t.parts, p.Inside nsectors) ↔ nsectors < u64Max ∨ t.origin = .mbr ∨
          ∀ p ∈ t.parts, ¬ EndsAtMax (entryAt r.2.scratch (p.index - 1)))) := by
  have hreads : OnDisk nsectors r.2 ∧ r.2.log.length ≤ 0 + maxReads sectorSize * 1 :=
    hr ▸ Eff.snd_of_wp (parse_reads (Work.start buf scratch) nofun)
  refine ⟨by have := hreads.2; omega, hreads.1, fun t ht => ?_⟩
  have hsafe : TableSafe nsectors r.2 t :=
    (Eff.wp_iff_run.mp (parse_tableSafe buf scratch)).1 t r.2 (hr.trans (Prod.ext ht rfl))
  refine ⟨hsafe, fun hn => ?_⟩
  have hpart : (∀ p ∈ t.parts, p.Inside nsectors) ↔ ∀ p ∈ t.parts, nsectors < u64Max ∨
      t.origin = .mbr ∨ ¬ EndsAtMax (entryAt r.2.scratch (p.index - 1)) :=
    forall₂_congr fun p hp => (and_iff_right (hsafe.nonempty p hp)).trans (hsafe.inside hn p hp)
  simp only [hpart, forall_or_left]

/-- An extended partition at sector 10 with two logical ones, the second named by the EBR at 20. -/
def ebrDisk : Reader 512 :=
  fun _ lba _ => (true, match lba with
    | 0 => packMbr .zero [(0x83, 1, 9), (mbrExtended, 10, 50), (0, 0, 0), (0, 0, 0)]
    | 10 => packEbr .zero 0x83 1 5 10 40
    | 20 => packEbr .zero 0x83 1 30 0 0
    | _ => .zero)

def ebrTable : Table :=
  ⟨.mbr, [⟨1, 1, 9, .mbr 0x83⟩, ⟨5, 11, 5, .mbr 0x83⟩, ⟨6, 21, 30, .mbr 0x83⟩]⟩

/-- The partitions of an MBR lie on the disk, also on one of as many sectors as a word can count. -/
theorem parse_safe_ebr :
    ∃ r, parse u64Max 512 ebrDisk (.start .zero (.zero : Buf 0)) = r ∧ r.1 = .ok ebrTable ∧
      TableSafe u64Max r.2 ebrTable ∧ ∀ p ∈ ebrTable.parts, p.Inside u64Max := by
  have hrun : (parse u64Max 512 ebrDisk (.start .zero (.zero : Buf 0))).1 = .ok ebrTable := by
    decide +kernel
  obtain ⟨hsafe, hinside⟩ := (parse_safe u64Max 512 ebrDisk .zero .zero _ rfl).2.2 _ hrun
  exact ⟨_, rfl, hrun, hsafe, (hinside (Nat.le_refl _)).mpr (.inr (.inl rfl))⟩

end VibeOS.Block
