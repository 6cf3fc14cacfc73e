import VibeOS.Virtio.QueueCalls

/-!
A queue between its driver and its device. The driver adds chains, publishes each before it adds
the next, and takes used elements. The device reads the heads of the avail ring one after another,
writes an element to the used ring for each head it has read, in any order, and moves the used
index over the elements it has written. Counts that the indexes hold modulo 2^16 are kept in full
beside them. Adding a chain, publishing it and every access of the device keep the invariant.
-/
namespace VibeOS.Virtio

/-- A chain the driver has added and not got back. -/
structure Chain where
  ids : List Nat
  bufs : List DescBuf
  deriving DecidableEq, Repr

def Chain.head (c : Chain) : Nat := c.ids.headD 0

/-- The buffer's fields fit their words, and it does not ask for a next descriptor itself. -/
def DescBuf.Plain (b : DescBuf) : Prop :=
  b.addr < 2 ^ 64 ∧ b.len < 2 ^ 32 ∧ b.flags < 2 ^ 16 ∧ b.flags &&& descFNext = 0

instance (b : DescBuf) : Decidable b.Plain := inferInstanceAs (Decidable (_ ∧ _ ∧ _ ∧ _))

theorem DescBuf.Plain.fits {b : DescBuf} (h : b.Plain) : b.Fits := ⟨h.1, h.2.1, h.2.2.1⟩

structure QueueSys (n : Nat) where
  q : SplitQueue n
  /-- The chains in flight. -/
  chains : List Chain
  /-- Every head `add_chain` has returned, and how many of them are published. -/
  heads : List Nat
  sent : Nat
  /-- How many heads the device has read, and those of them it has not completed. -/
  consumed : Nat
  taken : List Nat
  /-- Every element the device has written to the used ring, and how many of them its index
  covers. -/
  done : List UsedElem
  seen : Nat
  /-- What `get_used` has returned. -/
  got : List UsedElem

inductive Label where
  | addChain (bufs : List DescBuf)
  | publish
  | getUsed
  | consume
  | complete (i len : Nat)
  | announce (m : Nat)
  | notify (flags event : Nat)
  deriving DecidableEq, Repr

namespace QueueSys
variable {n : Nat}

/-- A queue after `init`, whatever its memory held. -/
def start (q : SplitQueue n) : QueueSys n :=
  { q := q.init, chains := [], heads := [], sent := 0, consumed := 0, taken := [], done := [],
    seen := 0, got := [] }

/-- One call of the driver or one access of the device. What neither may do changes nothing. -/
def step (s : QueueSys n) : Label → QueueSys n
  | .addChain bufs =>
    if s.sent = s.heads.length ∧ ∀ b ∈ bufs, b.Plain then
      match s.q.addChain bufs with
      | (.error _, q) => { s with q }
      | (.ok head, q) =>
        { s with
          q, heads := s.heads ++ [head],
          chains := s.chains ++ [{ ids := s.q.freeIds.take bufs.length, bufs }] }
    else s
  | .publish =>
    if s.sent < s.heads.length then { s with q := s.q.publish, sent := s.sent + 1 } else s
  | .getUsed =>
    match s.q.getUsed with
    | (none, q) => { s with q }
    | (some e, q) =>
      { s with
        q, chains := s.chains.eraseP fun c => c.head = e.id,
        got := s.got ++ [e] }
  | .consume =>
    let next := s.consumed % 2 ^ 16
    if s.q.rd 2 s.q.layout.availIdx = next then s
    else
      { s with
        consumed := s.consumed + 1,
        taken := s.taken ++ [s.q.rd 2 (s.q.layout.availRing next)] }
  | .complete i len =>
    match s.taken[i]? with
    | none => s
    | some head =>
      let off := s.q.layout.usedElem (s.done.length % 2 ^ 16)
      { s with
        q := (s.q.wr 4 off head).wr 4 (off + 4) (len % 2 ^ 32),
        taken := s.taken.eraseIdx i,
        done := s.done ++ [{ id := head, len := len % 2 ^ 32 }] }
  | .announce m =>
    if s.seen ≤ m ∧ m ≤ s.done.length then
      { s with q := s.q.wr 2 s.q.layout.usedIdx (m % 2 ^ 16), seen := m }
    else s
  | .notify flags event =>
    { s with
      q := (s.q.wr 2 s.q.layout.usedFlags (flags % 2 ^ 16)).wr 2 s.q.layout.availEvent
        (event % 2 ^ 16) }

def run (s : QueueSys n) (ls : List Label) : QueueSys n := ls.foldl step s

end QueueSys

/-- What holds between any two steps; `xs` is the free list. -/
structure Inv {n : Nat} (s : QueueSys n) (xs : List Nat) : Prop where
  follows : Follows s.q s.q.freeHead xs
  count : s.q.numFree = xs.length
  head_lt : s.q.freeHead < 2 ^ 16
  parts : (xs ++ s.chains.flatMap Chain.ids).Perm (List.range n)
  holds : ∀ c ∈ s.chains, Holds s.q c.ids c.bufs
  plain : ∀ c ∈ s.chains, ∀ b ∈ c.bufs, b.flags &&& descFNext = 0
  availIdx : s.q.at .availIdx = s.sent % 2 ^ 16
  sent_le : s.sent ≤ s.heads.length
  added_le : s.heads.length ≤ s.sent + 1
  consumed_le : s.consumed ≤ s.sent
  /-- The entries of the avail ring that the device has not read. -/
  entries : ∀ k h, s.consumed ≤ k → s.heads[k]? = some h → s.q.at (.avail (k % n)) = h
  usedIdx : s.q.at .usedIdx = s.seen % 2 ^ 16
  seen_le : s.seen ≤ s.done.length
  lastUsed : s.q.lastUsed = s.got.length % 2 ^ 16
  got_le : s.got.length ≤ s.seen
  got_eq : s.got = s.done.take s.got.length
  /-- The elements of the used ring that the driver has not taken. -/
  used : ∀ k e, s.got.length ≤ k → s.done[k]? = some e → s.q.usedAt (k % n) = e
  /-- A chain in flight is with the device, still to be read by it, or completed. -/
  owners : (s.chains.map Chain.head).Perm
    (s.taken ++ s.heads.drop s.consumed ++ (s.done.drop s.got.length).map UsedElem.id)

theorem Holds.ids_ne {n : Nat} {q : SplitQueue n} {ids : List Nat} {bufs : List DescBuf}
    (h : Holds q ids bufs) : ids ≠ [] := by
  rintro rfl
  exact h

theorem length_le_ids {cs : List Chain} (h : ∀ c ∈ cs, c.ids ≠ []) :
    cs.length ≤ (cs.flatMap Chain.ids).length := by
  induction cs with
  | nil => exact Nat.le_refl _
  | cons c cs ih =>
    rw [List.forall_mem_cons] at h
    have hrest := ih h.2
    have hone : 0 < c.ids.length := List.length_pos_iff.mpr h.1
    rw [List.flatMap_cons, List.length_append, List.length_cons]
    omega

namespace Inv
variable {n : Nat} {s : QueueSys n} {xs : List Nat}

variable (h : Inv s xs)
include h

theorem nodup : (xs ++ s.chains.flatMap Chain.ids).Nodup :=
  h.parts.nodup_iff.mpr List.nodup_range

theorem lt {i : Nat} (hi : i ∈ xs ++ s.chains.flatMap Chain.ids) : i < n :=
  List.mem_range.mp (h.parts.mem_iff.mp hi)

theorem free_lt {i : Nat} (hi : i ∈ xs) : i < n :=
  h.lt (List.mem_append_left _ hi)

theorem ids_lt {c : Chain} (hc : c ∈ s.chains) {i : Nat} (hi : i ∈ c.ids) : i < n :=
  h.lt (List.mem_append_right _ (List.mem_flatMap.mpr ⟨c, hc, hi⟩))

theorem apart {c : Chain} {i j : Nat} (hi : i ∈ xs) (hc : c ∈ s.chains) (hj : j ∈ c.ids) : i ≠ j :=
  (List.nodup_append.mp h.nodup).2.2 i hi j (List.mem_flatMap.mpr ⟨c, hc, hj⟩)

theorem freeIds (hn : RingSize n) : s.q.freeIds = xs := by
  rw [SplitQueue.freeIds, h.count]
  exact h.follows.walk hn fun _ => h.free_lt

theorem chains_le : xs.length + s.chains.length ≤ n := by
  have hlen := h.parts.length_eq
  rw [List.length_append, List.length_range] at hlen
  have hids := length_le_ids fun c hc => (h.holds c hc).ids_ne
  omega

theorem places :
    s.chains.length =
      s.taken.length + (s.heads.length - s.consumed) + (s.done.length - s.got.length) := by
  have hlen := h.owners.length_eq
  simpa only [List.length_append, List.length_map, List.length_drop] using hlen

end Inv

theorem mod_ne {a b n : Nat} (hab : a < b) (hn : b < a + n) : a % n ≠ b % n := by
  intro heq
  have hzero := Nat.sub_mod_eq_zero_of_mod_eq heq.symm
  rw [Nat.mod_eq_of_lt (by omega)] at hzero
  omega

variable {n : Nat} {s : QueueSys n} {xs : List Nat}

namespace Inv

theorem start (hn : RingSize n) (q : SplitQueue n) : Inv (.start q) (List.range n) := by
  obtain ⟨hfollow, hfree, hhead, hlast, havail, hused, -⟩ := hn.init (q := q)
  refine ⟨hfollow, ?_, ?_, ?_, nofun, nofun, havail, Nat.le_refl _, Nat.le_succ _, Nat.le_refl _,
    nofun, hused, Nat.le_refl _, hlast, Nat.le_refl _, rfl, nofun, List.Perm.nil⟩
  · rw [List.length_range]
    exact hfree
  · change q.init.freeHead < 2 ^ 16
    rw [hhead]
    omega
  · change (List.range n ++ []).Perm (List.range n)
    rw [List.append_nil]

variable (h : Inv s xs)
include h

theorem table {r : SplitQueue n} (hsame : ∀ i < n, ∀ f, f.ofDesc i → r.at f = s.q.at f) :
    Follows r s.q.freeHead xs ∧ ∀ c ∈ s.chains, Holds r c.ids c.bufs := by
  refine ⟨h.follows.congr fun i hi => hsame i (h.free_lt hi) _ (by simp [Field.ofDesc]),
    fun c hc => (h.holds c hc).congr fun i hi f hf => hsame i (h.ids_lt hc hi) f hf⟩

theorem used_congr {q' : SplitQueue n} {k : Nat} {e : UsedElem} (hk : s.got.length ≤ k)
    (hget : s.done[k]? = some e) (hid : q'.at (.usedId (k % n)) = s.q.at (.usedId (k % n)))
    (hlen : q'.at (.usedLen (k % n)) = s.q.at (.usedLen (k % n))) : q'.usedAt (k % n) = e :=
  (congrArg₂ UsedElem.mk hid hlen).trans (h.used k e hk hget)

theorem taken_lt {head : Nat} (ht : head ∈ s.taken) : head < n := by
  have hmem : head ∈ s.chains.map Chain.head := by
    rw [h.owners.mem_iff]
    exact List.mem_append_left _ (List.mem_append_left _ ht)
  obtain ⟨c, hc, rfl⟩ := List.mem_map.mp hmem
  obtain ⟨j, ids, hids⟩ := List.exists_cons_of_ne_nil (h.holds c hc).ids_ne
  rw [Chain.head, hids]
  exact h.ids_lt hc (by rw [hids]; simp)

variable (hn : RingSize n)
include hn

theorem addChain_cases {bufs : List DescBuf} (hplain : ∀ b ∈ bufs, b.Plain) :
    (bufs.length = 0 ∨ maxChain < bufs.length ∨ xs.length < bufs.length) ∧
        s.q.addChain bufs = (.error .noDesc, s.q) ∨
      ∃ ids ys q', xs = ids ++ ys ∧ ids.length = bufs.length ∧ bufs.length ≠ 0 ∧
        s.q.addChain bufs = (.ok (ids.headD 0), q') ∧
        Leaves (fun f => (∃ i ∈ ids, f.ofDesc i) ∨ f = .avail (s.q.at .availIdx % n)) s.q q' ys ∧
        q'.lastUsed = s.q.lastUsed ∧ Holds q' ids bufs ∧
        q'.at (.avail (s.q.at .availIdx % n)) = ids.headD 0 := by
  by_cases hfew : bufs.length = 0 ∨ maxChain < bufs.length ∨ xs.length < bufs.length
  · exact .inl ⟨hfew, SplitQueue.addChain_noDesc (h.count ▸ hfew)⟩
  push Not at hfew
  obtain ⟨ids, ys, rfl, hids⟩ : ∃ ids ys, xs = ids ++ ys ∧ ids.length = bufs.length :=
    ⟨xs.take bufs.length, xs.drop bufs.length, (List.take_append_drop _ _).symm, by
      rw [List.length_take]
      omega⟩
  have hnd := h.nodup
  obtain ⟨q', hrun, hleaves, hlast, hholds, hslot⟩ := hn.addChain h.follows h.count h.head_lt
    (List.nodup_append.mp hnd).1 (fun _ => h.free_lt) hids hfew.1 hfew.2.1
    fun b hb => (hplain b hb).fits
  exact .inr ⟨ids, ys, q', rfl, hids, hfew.1, hrun, hleaves, hlast, hholds, hslot⟩

theorem addChain (bufs : List DescBuf) : ∃ xs', Inv (s.step (.addChain bufs)) xs' := by
  rw [QueueSys.step]
  split
  case isFalse => exact ⟨xs, h⟩
  rename_i hguard
  obtain ⟨hsent, hplain⟩ := hguard
  rcases h.addChain_cases hn hplain with
    ⟨-, hrun⟩ | ⟨ids, ys, q', rfl, hids, hpos, hrun, hleaves, hlast, hholds, hslot⟩
  · rw [hrun]
    exact ⟨xs, h⟩
  have hfree : 0 < (ids ++ ys).length := by
    rw [List.length_append]
    omega
  have hsize := h.chains_le
  have hplaces := h.places
  have hidx : s.q.at .availIdx % n = s.heads.length % n := by
    rw [h.availIdx, Nat.mod_mod_of_dvd _ hn.dvd, hsent]
  rw [hidx] at hleaves hslot
  have hkeep : ∀ f, f.Valid n → f.isDesc = false → f ≠ .avail (s.heads.length % n) →
      q'.at f = s.q.at f := by
    refine fun f hf hd hne => hleaves.same f hf ?_
    rintro (⟨j, -, hfj⟩ | heq)
    · exact Field.not_ofDesc hd hfj
    · exact hne heq
  rw [hrun, h.freeIds hn, ← hids, List.take_left]
  refine ⟨ys, hleaves.follows, hleaves.count, hleaves.head_lt, ?_, ?_, ?_, ?_, ?_, ?_, ?_, ?_, ?_,
    h.seen_le, ?_, h.got_le, h.got_eq, ?_, ?_⟩
  · change (ys ++ (s.chains ++ [Chain.mk ids bufs]).flatMap Chain.ids).Perm (List.range n)
    rw [List.flatMap_append, List.flatMap_singleton]
    refine List.Perm.trans ?_ h.parts
    rw [← List.append_assoc, List.append_assoc ids]
    exact List.perm_append_comm
  · refine List.forall_mem_append.mpr ⟨fun c hc => (h.holds c hc).congr fun i hi f hf => ?_, ?_⟩
    · refine hleaves.same f (Field.ofDesc_valid hf (h.ids_lt hc hi)) ?_
      rintro (⟨j, hj, hfj⟩ | rfl)
      · refine Field.ofDesc_ne hf ?_ hfj
        exact (h.apart (List.mem_append_left _ hj) hc hi).symm
      · exact Field.not_ofDesc rfl hf
    · rw [List.forall_mem_singleton]
      exact hholds
  · refine List.forall_mem_append.mpr ⟨h.plain, ?_⟩
    rw [List.forall_mem_singleton]
    exact fun b hb => (hplain b hb).2.2.2
  · exact (hkeep .availIdx trivial rfl (by nofun)).trans h.availIdx
  · rw [List.length_append]
    exact h.sent_le.trans (Nat.le_add_right _ _)
  · rw [List.length_append, List.length_singleton, hsent]
  · exact h.consumed_le
  · intro k head hk hget
    rw [List.getElem?_append] at hget
    split at hget
    · rename_i hold
      have hne := mod_ne (n := n) hold (by change s.consumed ≤ k at hk; omega)
      refine (hkeep _ (Nat.mod_lt _ hn.pos) rfl ?_).trans (h.entries k head hk hget)
      exact fun heq => hne (Field.avail.inj heq)
    · obtain ⟨hlt, heq⟩ := List.getElem?_eq_some_iff.mp hget
      rw [List.length_singleton] at hlt
      have hk : k = s.heads.length := by omega
      subst hk
      rw [hslot, ← heq]
      simp
  · exact (hkeep .usedIdx trivial rfl (by nofun)).trans h.usedIdx
  · exact hlast.trans h.lastUsed
  · intro k e hk hget
    rw [← h.used k e hk hget]
    have hslot : k % n < n := Nat.mod_lt _ hn.pos
    exact congrArg₂ UsedElem.mk (hkeep _ hslot rfl (by nofun)) (hkeep _ hslot rfl (by nofun))
  · change ((s.chains ++ [Chain.mk ids bufs]).map Chain.head).Perm
      (s.taken ++ (s.heads ++ [ids.headD 0]).drop s.consumed ++ _)
    rw [List.map_append, List.drop_append_of_le_length (h.consumed_le.trans h.sent_le)]
    refine (h.owners.append_right _).trans ?_
    simp only [List.append_assoc]
    exact ((List.perm_append_comm.append_left _).append_left _)

theorem publish : Inv (s.step .publish) xs := by
  rw [QueueSys.step]
  split
  case isFalse => exact h
  rename_i hadded
  have hkeep : ∀ f, f.Valid n → f ≠ .availIdx → s.q.publish.at f = s.q.at f := by
    intro f hf hne
    rw [SplitQueue.at_publish hf, if_neg hne]
  obtain ⟨hfollow, hholds⟩ := h.table (r := s.q.publish) fun i hi f hf =>
    hkeep f (Field.ofDesc_valid hf hi) fun he => Field.not_ofDesc (i := i) rfl (he ▸ hf)
  have hslot : ∀ k, k % n < n := fun k => Nat.mod_lt _ hn.pos
  have hadded_le := h.added_le
  have hconsumed := h.consumed_le
  refine ⟨hfollow, h.count, h.head_lt, h.parts, hholds, h.plain, ?_, hadded, ?_, ?_,
    fun k head hk hget => ?_, ?_, h.seen_le, h.lastUsed, h.got_le, h.got_eq,
    fun k e hk hget => ?_, h.owners⟩
  · change s.q.publish.at .availIdx = (s.sent + 1) % 2 ^ 16
    rw [SplitQueue.at_publish (f := .availIdx) trivial, if_pos rfl, h.availIdx]
    omega
  · change s.heads.length ≤ s.sent + 1 + 1
    omega
  · change s.consumed ≤ s.sent + 1
    omega
  · exact (hkeep (.avail _) (hslot k) (by nofun)).trans (h.entries k head hk hget)
  · exact (hkeep .usedIdx trivial (by nofun)).trans h.usedIdx
  · exact h.used_congr hk hget (hkeep (.usedId _) (hslot k) (by nofun))
      (hkeep (.usedLen _) (hslot k) (by nofun))

theorem consume : Inv (s.step .consume) xs := by
  rw [QueueSys.step]
  split
  · exact h
  rename_i hread
  rw [SplitQueue.rd_availIdx, h.availIdx] at hread
  have hlt : s.consumed < s.sent := by
    refine Nat.lt_of_le_of_ne h.consumed_le fun heq => hread ?_
    rw [heq]
  have hlt' : s.consumed < s.heads.length := Nat.lt_of_lt_of_le hlt h.sent_le
  have hhead : s.q.rd 2 (s.q.layout.availRing (s.consumed % 2 ^ 16)) = s.heads[s.consumed] := by
    rw [hn.availRing, Nat.mod_mod_of_dvd _ hn.dvd]
    exact h.entries s.consumed _ (Nat.le_refl _) (List.getElem?_eq_getElem hlt')
  refine { h with
    consumed_le := hlt
    entries := fun k head hk hget => h.entries k head (Nat.le_of_succ_le hk) hget
    owners := ?_ }
  rw [hhead]
  refine h.owners.trans ?_
  rw [List.drop_eq_getElem_cons hlt', List.append_assoc s.taken [_], List.singleton_append]

theorem complete (i len : Nat) : Inv (s.step (.complete i len)) xs := by
  rw [QueueSys.step]
  split
  · exact h
  rename_i head hget
  obtain ⟨hi, hhead⟩ := List.getElem?_eq_some_iff.mp hget
  have hplaces := h.places
  have hsize := h.chains_le
  have hperm : (head :: s.taken.eraseIdx i).Perm s.taken := by
    rw [← hhead]
    exact List.getElem_cons_eraseIdx_perm hi
  have hlt : head < n := h.taken_lt (hhead ▸ List.getElem_mem hi)
  have hslot : ∀ k, k % n < n := fun k => Nat.mod_lt _ hn.pos
  have hle := hn.le
  obtain ⟨q', hq'⟩ : ∃ q' : SplitQueue n, q' =
      (s.q.wr 4 (s.q.layout.usedElem (s.done.length % 2 ^ 16)) head).wr 4
        (s.q.layout.usedElem (s.done.length % 2 ^ 16) + 4) (len % 2 ^ 32) := ⟨_, rfl⟩
  have hat : ∀ f, f.Valid n → q'.at f =
      if f = .usedLen (s.done.length % n) then len % 2 ^ 32
      else if f = .usedId (s.done.length % n) then head else s.q.at f := by
    intro f hf
    rw [hq', hn.at_writeUsed (by omega) (Nat.mod_lt _ (by omega)) hf,
      Nat.mod_mod_of_dvd _ hn.dvd]
  have hkeep : ∀ f, f.Valid n → f ≠ .usedLen (s.done.length % n) →
      f ≠ .usedId (s.done.length % n) → q'.at f = s.q.at f := by
    intro f hf h1 h2
    rw [hat f hf, if_neg h1, if_neg h2]
  obtain ⟨hfollow, hholds⟩ := h.table fun i hi f hf =>
    hkeep f (Field.ofDesc_valid hf hi) (fun he => Field.not_ofDesc (i := i) rfl (he ▸ hf))
      fun he => Field.not_ofDesc (i := i) rfl (he ▸ hf)
  have hid : q'.at (.usedId (s.done.length % n)) = head := by
    rw [hat (.usedId _) (hslot _), if_neg (by nofun), if_pos rfl]
  have hlen : q'.at (.usedLen (s.done.length % n)) = len % 2 ^ 32 := by
    rw [hat (.usedLen _) (hslot _), if_pos rfl]
  have hfree : q'.freeHead = s.q.freeHead := by rw [hq']; rfl
  have hcount : q'.numFree = s.q.numFree := by rw [hq']; rfl
  have hlast : q'.lastUsed = s.q.lastUsed := by rw [hq']; rfl
  have hgot := h.got_le.trans h.seen_le
  have hstep : Inv { s with
      q := q', taken := s.taken.eraseIdx i, done := s.done ++ [⟨head, len % 2 ^ 32⟩] } xs := by
    refine ⟨hfree ▸ hfollow, hcount.trans h.count, hfree ▸ h.head_lt, h.parts, hholds, h.plain,
      (hkeep .availIdx trivial (by nofun) (by nofun)).trans h.availIdx, h.sent_le, h.added_le,
      h.consumed_le, fun k head hk hget =>
        (hkeep (.avail _) (hslot k) (by nofun) (by nofun)).trans (h.entries k head hk hget),
      (hkeep .usedIdx trivial (by nofun) (by nofun)).trans h.usedIdx, ?_, hlast.trans h.lastUsed,
      h.got_le, ?_, fun k e hk hget => ?_, ?_⟩
    · rw [List.length_append]
      exact h.seen_le.trans (Nat.le_add_right _ _)
    · rw [List.take_append_of_le_length hgot]
      exact h.got_eq
    · rw [List.getElem?_append] at hget
      split at hget
      · rename_i hold
        have hne := mod_ne (n := n) hold (by change s.got.length ≤ k at hk; omega)
        exact h.used_congr hk hget
          (hkeep (.usedId _) (hslot k) (by nofun) fun he => hne (Field.usedId.inj he))
          (hkeep (.usedLen _) (hslot k) (fun he => hne (Field.usedLen.inj he)) (by nofun))
      · obtain ⟨hlt, heq⟩ := List.getElem?_eq_some_iff.mp hget
        rw [List.length_singleton] at hlt
        have hk : k = s.done.length := by omega
        subst hk
        simp only [Nat.sub_self, List.getElem_singleton] at heq
        rw [← heq]
        exact congrArg₂ UsedElem.mk hid hlen
    · rw [List.drop_append_of_le_length hgot, List.map_append, ← List.append_assoc]
      refine h.owners.trans ?_
      have hfront := (hperm.symm.append_right (s.heads.drop s.consumed)).append_right
        ((s.done.drop s.got.length).map UsedElem.id)
      exact hfront.trans (List.perm_append_singleton _ _).symm
  rw [hq'] at hstep
  exact hstep

theorem announce (m : Nat) : Inv (s.step (.announce m)) xs := by
  rw [QueueSys.step]
  split
  case isFalse => exact h
  rename_i hm
  have hat : ∀ f, f.Valid n → (s.q.wr 2 s.q.layout.usedIdx (m % 2 ^ 16)).at f =
      if f = .usedIdx then m % 2 ^ 16 else s.q.at f := fun f hf =>
    SplitQueue.at_wr2 (g := .usedIdx) rfl rfl hf trivial (Nat.mod_lt _ (by omega))
  have hkeep : ∀ f, f.Valid n → f ≠ .usedIdx →
      (s.q.wr 2 s.q.layout.usedIdx (m % 2 ^ 16)).at f = s.q.at f := by
    intro f hf hne
    rw [hat f hf, if_neg hne]
  obtain ⟨hfollow, hholds⟩ := h.table fun i hi f hf =>
    hkeep f (Field.ofDesc_valid hf hi) fun he => Field.not_ofDesc (i := i) rfl (he ▸ hf)
  have hslot : ∀ k, k % n < n := fun k => Nat.mod_lt _ hn.pos
  exact ⟨hfollow, h.count, h.head_lt, h.parts, hholds, h.plain,
    (hkeep .availIdx trivial (by nofun)).trans h.availIdx, h.sent_le, h.added_le, h.consumed_le,
    fun k head hk hget =>
      (hkeep (.avail _) (hslot k) (by nofun)).trans (h.entries k head hk hget),
    (hat .usedIdx trivial).trans (if_pos rfl), hm.2, h.lastUsed, h.got_le.trans hm.1, h.got_eq,
    fun k e hk hget => h.used_congr hk hget (hkeep (.usedId _) (hslot k) (by nofun))
      (hkeep (.usedLen _) (hslot k) (by nofun)), h.owners⟩

theorem notify (flags event : Nat) : Inv (s.step (.notify flags event)) xs := by
  rw [QueueSys.step]
  have hkeep : ∀ f, f.Valid n → f ≠ .availEvent → f ≠ .usedFlags →
      ((s.q.wr 2 s.q.layout.usedFlags (flags % 2 ^ 16)).wr 2 s.q.layout.availEvent
        (event % 2 ^ 16)).at f = s.q.at f := by
    intro f hf h1 h2
    have he : s.q.layout.availEvent = Field.off n .availEvent := rfl
    have hu : s.q.layout.usedFlags = Field.off n .usedFlags := rfl
    rw [SplitQueue.at_wr2 he rfl hf trivial (Nat.mod_lt _ (by omega)), if_neg h1,
      SplitQueue.at_wr2 hu rfl hf trivial (Nat.mod_lt _ (by omega)), if_neg h2]
  obtain ⟨hfollow, hholds⟩ := h.table fun i hi f hf =>
    hkeep f (Field.ofDesc_valid hf hi) (fun he => Field.not_ofDesc (i := i) rfl (he ▸ hf))
      fun he => Field.not_ofDesc (i := i) rfl (he ▸ hf)
  have hslot : ∀ k, k % n < n := fun k => Nat.mod_lt _ hn.pos
  exact ⟨hfollow, h.count, h.head_lt, h.parts, hholds, h.plain,
    (hkeep .availIdx trivial (by nofun) (by nofun)).trans h.availIdx, h.sent_le, h.added_le,
    h.consumed_le, fun k head hk hget =>
      (hkeep (.avail _) (hslot k) (by nofun) (by nofun)).trans (h.entries k head hk hget),
    (hkeep .usedIdx trivial (by nofun) (by nofun)).trans h.usedIdx, h.seen_le, h.lastUsed,
    h.got_le, h.got_eq,
    fun k e hk hget => h.used_congr hk hget (hkeep (.usedId _) (hslot k) (by nofun) (by nofun))
      (hkeep (.usedLen _) (hslot k) (by nofun) (by nofun)), h.owners⟩

end Inv

end VibeOS.Virtio
