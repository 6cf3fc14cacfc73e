import VibeOS.Kernfs.BlockWrite

/-!
Byte access to a block device's node by one caller. A read or a write of any bytes goes to the
device in whole blocks: an unaligned head, the aligned middle at once, and an unaligned tail, in
one loop. A read gives the bytes the device has there and a write changes those bytes and no
others, whatever the block size, the offset and the end of the device cut off.
-/
namespace VibeOS.Kernfs
open Lib Block Fs

/-- The loop of `blk_read`, from `done` bytes on. -/
def blkReadFrom (bs : Nat) (hbs : bs ≠ 0) (off n : Nat) (buf : List UInt8) (tmp : Bool)
    (done : Nat) : DevProg (Except FsError (Nat × List UInt8)) :=
  if _h : done < n then
    let pos := off + done
    let lba := pos / bs
    let inb := pos % bs
    let want := n - done
    if _hw : inb = 0 ∧ want ≥ bs then
      let len := want - want % bs
      onDev (.read lba len) fun bytes =>
        blkReadFrom bs hbs off n (patch buf done bytes) tmp (done + len)
    else
      bounce tmp bs <|
        onDev (.read lba bs) fun b =>
          let take := min (bs - inb) want
          blkReadFrom bs hbs off n (patch buf done ((b.drop inb).take take)) true (done + take)
  else .ret (.ok (n, buf))
termination_by n - done
decreasing_by
  · have := Nat.mod_lt (n - done) (Nat.pos_of_ne_zero hbs)
    have := Nat.mod_le (n - done) bs
    omega
  · have := Nat.mod_lt (off + done) (Nat.pos_of_ne_zero hbs)
    omega

/-- The count read and the buffer, filled so far. -/
def blkRead (off : Nat) (buf : List UInt8) : DevProg (Except FsError (Nat × List UInt8)) :=
  blkSize fun size =>
    onDev .logicalBlockSize fun bs =>
      if h : off ≥ size ∨ buf.isEmpty ∨ bs = 0 then .ret (.ok (0, buf))
      else
        let left := size - off
        let n := min buf.length left
        blkReadFrom bs (fun hbs => h (.inr (.inr hbs))) off n buf false 0

/-- Whole blocks of a device of `cap` blocks of `bs` bytes. -/
def WholeBlocks (cap bs lba len : Nat) : Prop :=
  ∃ k, 0 < k ∧ len = k * bs ∧ lba + k ≤ cap

/-- A read or a write is one of whole blocks inside the device. -/
def InDevice (cap bs : Nat) : ∀ {γ : Type}, DevOp γ → Prop
  | _, .capacitySectors | _, .logicalBlockSize => True
  | _, .read lba len => WholeBlocks cap bs lba len
  | _, .write lba bytes => WholeBlocks cap bs lba bytes.length

section
variable {cap bs off n done len : Nat} {buf : List UInt8} {m : Memory}

/-- A buffer with the bytes from `off` on in its first `done` bytes. -/
def filled (m : Memory) (off : Nat) (buf : List UInt8) (done : Nat) : List UInt8 :=
  m.slice off done ++ buf.drop done

theorem patch_filled : patch (filled m off buf done) done (m.slice (off + done) len) =
    filled m off buf (done + len) := by
  unfold patch filled
  rw [List.take_left' Memory.length_slice, Memory.length_slice, List.drop_append,
    Memory.length_slice, List.drop_of_length_le (by rw [Memory.length_slice]; omega),
    List.nil_append, List.drop_drop, Memory.slice_add, show done + (done + len - done) = done +
      len by omega]

theorem length_patch {b l : List UInt8} {inb : Nat} (h : inb + l.length ≤ b.length) :
    (patch b inb l).length = b.length := by
  simp only [patch, List.length_append, List.length_take, List.length_drop]
  omega

theorem wholeBlocks_middle (hbs : bs ≠ 0) (hend : off + n ≤ cap * bs) (hdone : done < n)
    (hinb : (off + done) % bs = 0) (hwant : n - done ≥ bs) :
    WholeBlocks cap bs ((off + done) / bs) (n - done - (n - done) % bs) := by
  have hpos := Nat.div_add_mod' (off + done) bs
  have hrest := Nat.div_add_mod' (n - done) bs
  refine ⟨(n - done) / bs, Nat.div_pos hwant (Nat.pos_of_ne_zero hbs), by omega, ?_⟩
  refine Nat.le_of_mul_le_mul_right ?_ (Nat.pos_of_ne_zero hbs)
  rw [Nat.add_mul]
  omega

theorem wholeBlocks_one (hbs : bs ≠ 0) (hend : off + n ≤ cap * bs) (hdone : done < n) :
    WholeBlocks cap bs ((off + done) / bs) bs := by
  refine ⟨1, Nat.one_pos, (Nat.one_mul bs).symm, ?_⟩
  exact (Nat.div_lt_iff_lt_mul (Nat.pos_of_ne_zero hbs)).mpr (by omega)

/-- A program by itself on the device, in whole blocks and with a heap that has a buffer. -/
def Served {α : Type} (cap bs : Nat) (P : α → Memory → Prop) (p : DevProg α) (m : Memory) : Prop :=
  p.Alone (devExec cap bs) granted (InDevice cap bs) P m

section
variable {α β : Type} {P : Except FsError β → Memory → Prop} {lba : Nat} {tmp : Bool}

theorem served_read {k : List UInt8 → DevProg (Except FsError β)} (h : WholeBlocks cap bs lba len)
    (hk : Served cap bs P (k (m.slice (lba * bs) len)) m) :
    Served cap bs P (onDev (.read lba len) k) m :=
  ⟨h, hk⟩

theorem served_write {bytes : List UInt8} {k : Unit → DevProg (Except FsError β)}
    (h : WholeBlocks cap bs lba bytes.length)
    (hk : Served cap bs P (k ()) (m.store (lba * bs) bytes)) :
    Served cap bs P (onDev (.write lba bytes) k) m :=
  ⟨h, hk⟩

theorem served_bounce {k : DevProg (Except FsError β)} (hk : Served cap bs P k m) :
    Served cap bs P (bounce tmp bs k) m := by
  unfold bounce
  split
  · exact hk
  · exact hk

theorem served_sizes {k : Nat → Nat → DevProg (Except FsError β)} (hfit : cap * bs < 2 ^ 64)
    (hk : Served cap bs P (k (cap * bs) bs) m) :
    Served cap bs P (blkSize fun size => onDev .logicalBlockSize fun bs => k size bs) m := by
  refine ⟨trivial, trivial, ?_⟩
  dsimp only [devExec]
  rw [if_neg (by omega)]
  exact ⟨trivial, hk⟩

end

theorem blkReadFrom_served (hbs : bs ≠ 0) (hend : off + n ≤ cap * bs) (tmp : Bool)
    (hdone : done ≤ n) :
    Served cap bs (fun r m' => r = .ok (n, filled m off buf n) ∧ m' = m)
      (blkReadFrom bs hbs off n (filled m off buf done) tmp done) m := by
  induction hk : n - done using Nat.strongRecOn generalizing tmp done with
  | ind k ih =>
    rw [blkReadFrom]
    split
    case isFalse =>
      obtain rfl : done = n := by omega
      exact ⟨rfl, rfl⟩
    rename_i hlt
    have hmod := Nat.mod_lt (off + done) (Nat.pos_of_ne_zero hbs)
    have hdiv := Nat.div_add_mod' (off + done) bs
    -- `len` more bytes are in the buffer, and the loop goes on
    have hnext (tmp : Bool) (len : Nat) (hpos : 0 < len) (hlen : done + len ≤ n) :
        Served cap bs (fun r m' => r = .ok (n, filled m off buf n) ∧ m' = m)
          (blkReadFrom bs hbs off n
            (patch (filled m off buf done) done (m.slice (off + done) len)) tmp (done + len))
          m := by
      rw [patch_filled]
      exact ih (n - (done + len)) (by omega) tmp hlen rfl
    dsimp only
    split
    · rename_i hwhole
      have hrem := Nat.mod_lt (n - done) (Nat.pos_of_ne_zero hbs)
      refine served_read (wholeBlocks_middle hbs hend hlt hwhole.1 hwhole.2) ?_
      rw [show (off + done) / bs * bs = off + done by omega]
      exact hnext tmp _ (by omega) (by omega)
    · refine served_bounce (served_read (wholeBlocks_one hbs hend hlt) ?_)
      rw [Memory.take_drop_slice (by omega), hdiv]
      exact hnext true _ (by omega) (by omega)

theorem blkWriteFrom_served (hbs : bs ≠ 0) (hend : off + n ≤ cap * bs) (hbuf : n ≤ buf.length)
    (tmp : Bool) (hdone : done ≤ n) :
    Served cap bs (fun r m' => r = .ok n ∧ m' = m.store off (buf.take n))
      (blkWriteFrom bs hbs off n buf tmp done) (m.store off (buf.take done)) := by
  induction hk : n - done using Nat.strongRecOn generalizing tmp done with
  | ind k ih =>
    rw [blkWriteFrom]
    split
    case isFalse =>
      obtain rfl : done = n := by omega
      exact ⟨rfl, rfl⟩
    rename_i hlt
    have hmod := Nat.mod_lt (off + done) (Nat.pos_of_ne_zero hbs)
    have hdiv := Nat.div_add_mod' (off + done) bs
    have hpiece {len : Nat} (hlen : done + len ≤ n) : ((buf.drop done).take len).length = len := by
      rw [List.length_take, List.length_drop]
      omega
    -- `len` more bytes are on the device, and the loop goes on
    have hnext (tmp : Bool) (len : Nat) (hpos : 0 < len) (hlen : done + len ≤ n) :
        Served cap bs (fun r m' => r = .ok n ∧ m' = m.store off (buf.take n))
          (blkWriteFrom bs hbs off n buf tmp (done + len))
          ((m.store off (buf.take done)).store (off + done) ((buf.drop done).take len)) := by
      rw [Memory.store_take]
      exact ih (n - (done + len)) (by omega) tmp hlen rfl
    dsimp only
    split
    · rename_i hwhole
      have hrem := Nat.mod_lt (n - done) (Nat.pos_of_ne_zero hbs)
      have hle := Nat.mod_le (n - done) bs
      refine served_write ?_ ?_
      · rw [hpiece (by omega)]
        exact wholeBlocks_middle hbs hend hlt hwhole.1 hwhole.2
      · rw [show (off + done) / bs * bs = off + done by omega]
        exact hnext tmp _ (by omega) (by omega)
    · have hone := wholeBlocks_one hbs hend hlt
      refine served_bounce (served_read hone (served_write ?_ ?_))
      · rw [length_patch (by rw [hpiece (by omega), Memory.length_slice]; omega),
          Memory.length_slice]
        exact hone
      · rw [Memory.slice, store_patch (fun _ _ => rfl) (by rw [hpiece (by omega)]; omega), hdiv]
        exact hnext true _ (by omega) (by omega)

/-- A read gives the bytes that the device has from the offset on, as many as the buffer and the
device have; a write changes those and no others, and past the end there is no room. Both go to
the device in whole blocks inside it. -/
theorem byte_access (cap bs off : Nat) (buf : List UInt8) (m : Memory) (hbs : bs ≠ 0)
    (hfit : cap * bs < 2 ^ 64) :
    let n := min buf.length (cap * bs - off)
    Served cap bs (fun r m' => r = .ok (n, m.slice off n ++ buf.drop n) ∧ m' = m)
        (blkRead off buf) m ∧
      Served cap bs
        (fun r m' => r = (if buf = [] then .ok 0 else if cap * bs ≤ off then .error .noSpace
            else .ok n) ∧ m' = m.store off (buf.take n))
        (blkWrite off buf) m := by
  intro n
  constructor
  · refine served_sizes hfit ?_
    dsimp only
    split
    · rename_i hnone
      have hzero : n = 0 := by
        simp only [List.isEmpty_iff] at hnone
        rcases hnone with h | h | h
        · omega
        · simp [n, h]
        · exact absurd h hbs
      exact ⟨by rw [hzero]; rfl, rfl⟩
    · exact blkReadFrom_served hbs (by omega) false (Nat.zero_le _)
  · refine served_sizes hfit ?_
    dsimp only
    by_cases hempty : buf = []
    · have hzero : n = 0 := by simp [n, hempty]
      rw [if_pos (List.isEmpty_iff.mpr hempty)]
      exact ⟨(if_pos hempty).symm, by rw [hzero, List.take_zero, Memory.store_nil]⟩
    have hne : ¬ buf.isEmpty = true := by simpa using hempty
    rw [if_neg hne]
    by_cases hend : cap * bs ≤ off
    · have hzero : n = 0 := by omega
      rw [dif_pos (.inl hend)]
      exact ⟨by rw [if_neg hempty, if_pos hend], by rw [hzero, List.take_zero, Memory.store_nil]⟩
    · rw [dif_neg (by omega)]
      have hwrite := blkWriteFrom_served (m := m) hbs (by omega : off + n ≤ cap * bs)
        (Nat.min_le_left _ _) false (Nat.zero_le n)
      rw [List.take_zero, Memory.store_nil] at hwrite
      rw [if_neg hempty, if_neg hend]
      exact hwrite

end

/-- A range across three blocks of four bytes, the last one cut off by the end of the device. -/
theorem byte_access_across :
    Served 3 4 (fun r m' => r = .ok (6, [6, 7, 8, 9, 10, 11, 0, 0]) ∧ m' = fun c => c.toUInt8)
      (blkRead 6 (List.replicate 8 0)) fun c => c.toUInt8 :=
  (byte_access 3 4 6 (List.replicate 8 0) (fun c => c.toUInt8) (by decide) (by decide)).1

/-- A device whose size in bytes does not fit 64 bits cannot be read at all. -/
theorem oversized_device_inval :
    Served (2 ^ 63) 2 (fun r _ => r = .error .inval) (blkRead 0 [0]) fun _ => 0 :=
  ⟨trivial, trivial, rfl⟩

/-- The heap has a buffer for nobody. -/
def refused : ∀ {γ : Type}, HeapAsk γ → γ
  | _, .bounce _ => false

/-- With no bounce buffer, one byte of a block of two can be neither read nor written. -/
theorem refused_bounce_noMem :
    (blkRead 1 [0]).Alone (devExec 1 2) refused (InDevice 1 2)
        (fun r _ => r = .error .noMem) (fun _ => 0) ∧
      (blkWrite 1 [7]).Alone (devExec 1 2) refused (InDevice 1 2)
        (fun r m' => r = .error .noMem ∧ m' = fun _ => 0) fun _ => 0 := by
  refine ⟨⟨trivial, trivial, trivial, ?_⟩, trivial, trivial, trivial, ?_⟩
  · simp [devExec, blkReadFrom, bounce, Prog.Alone, refused]
  · simp [devExec, blkWriteFrom, bounce, Prog.Alone, refused]

end VibeOS.Kernfs
