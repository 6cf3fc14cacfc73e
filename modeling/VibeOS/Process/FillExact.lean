import VibeOS.Process.Fill

/-!
Fills are exact. Where every byte of the range has a place in physical memory and no two have the
same, the stores page by page add up to the range and touch nothing else; an error comes from a
batch with an unmapped page, before any byte of the batch is written.
-/
namespace VibeOS.Process
open Mm (pageSize4K Mapper VirtAddr)
open Lib

/-- The bytes of `[va, hi)` are those of `new` at their places, and all others those of `m`. -/
structure FilledTo (place : Nat → Option Nat) (new : Nat → UInt8) (va hi : Nat) (m m' : Memory) :
    Prop where
  inside : ∀ x, va ≤ x → x < hi → ∃ a, place x = some a ∧ m' a = new x
  outside : ∀ a, (∀ x, va ≤ x → x < hi → place x ≠ some a) → m' a = m a

section
variable {place : Nat → Option Nat} {new : Nat → UInt8} {va lo hi stop n : Nat} {m m' : Memory}

theorem FilledTo.refl (place : Nat → Option Nat) (new : Nat → UInt8) (va : Nat) (m : Memory) :
    FilledTo place new va va m m :=
  ⟨fun x h h' => absurd h' (by omega), fun _ _ => rfl⟩

theorem FilledTo.store (h : FilledTo place new va lo m m') (hlo : va ≤ lo)
    (hplace : ∀ x y a, va ≤ x → x < hi → va ≤ y → y < hi → place x = some a → place y = some a →
      x = y)
    {base : Nat} {bytes : List UInt8} (hlen : lo + bytes.length = hi)
    (hrow : ∀ j < bytes.length, place (lo + j) = some (base + j) ∧
      bytes[j]? = some (new (lo + j))) :
    FilledTo place new va hi m (m'.store base bytes) := by
  have hin (j : Nat) (hj : j < bytes.length) : m'.store base bytes (base + j) = new (lo + j) := by
    rw [Memory.store, if_pos (Nat.le_add_right _ _), Nat.add_sub_cancel_left, (hrow j hj).2,
      Option.getD_some]
  refine ⟨fun x hx hx' => ?_, fun a ha => ?_⟩
  · rcases Nat.lt_or_ge x lo with hlt | hge
    · obtain ⟨a, hxa, hm⟩ := h.inside x hx hlt
      refine ⟨a, hxa, ?_⟩
      rw [Memory.store_of_ne, hm]
      by_contra hcover
      have hj := (hrow (a - base) (by omega)).1
      rw [show base + (a - base) = a by omega] at hj
      have := hplace x _ a hx (by omega) (by omega) (by omega) hxa hj
      omega
    · have hj := (hrow (x - lo) (by omega)).1
      have hval := hin (x - lo) (by omega)
      rw [show lo + (x - lo) = x by omega] at hj hval
      exact ⟨_, hj, hval⟩
  · rw [Memory.store_of_ne, h.outside a fun x hx hx' => ha x hx (by omega)]
    by_contra hcover
    have hj := (hrow (a - base) (by omega)).1
    rw [show base + (a - base) = a by omega] at hj
    exact ha _ (by omega) (by omega) hj

end

section Driver
variable {π : Type} {frame : Nat → Option π} {tgt : π → Nat} {new : Nat → UInt8}
  {look : Batch → Except FillError (List π)}
  {put : π → Nat → Nat → Nat → Memory → Except FillError Memory} {va stop : Nat} {m m' : Memory}

/-- Where a user address lies in physical memory, from the frame of its page. -/
def placeOf (frame : Nat → Option π) (tgt : π → Nat) (x : Nat) : Option Nat :=
  (frame (x / pageSize4K * pageSize4K)).map fun p => tgt p + x % pageSize4K

theorem placeOf_eq {page x : Nat} {p : π} (hpage : page % pageSize4K = 0) (hp : frame page = some p)
    (hlo : page ≤ x) (hhi : x < page + pageSize4K) :
    placeOf frame tgt x = some (tgt p + (x - page)) := by
  have hsize : pageSize4K = 4096 := rfl
  rw [hsize] at hpage hhi
  unfold placeOf
  rw [hsize, show x / 4096 * 4096 = page by omega, hp, show x % 4096 = x - page by omega]
  rfl

/-- A lookup finds what every page of a batch has, or tells that one has nothing. -/
structure Looks (frame : Nat → Option π) (look : Batch → Except FillError (List π)) : Prop where
  ok : ∀ b : Batch, (∀ i < b.pages, (frame (b.va + i * pageSize4K)).isSome) →
    ∃ ps, look b = .ok ps ∧ ps.length = b.pages ∧
      ∀ i < b.pages, ps[i]? = frame (b.va + i * pageSize4K)
  error : ∀ b : Batch, ¬ (∀ i < b.pages, (frame (b.va + i * pageSize4K)).isSome) →
    look b = .error .unmapped

/-- What is put into a page is the bytes of `new`, as long as the pages before are filled. -/
def Puts (frame : Nat → Option π) (tgt : π → Nat) (new : Nat → UInt8)
    (put : π → Nat → Nat → Nat → Memory → Except FillError Memory) (va stop : Nat) (m : Memory) :
    Prop :=
  ∀ (page lo hi : Nat) (p : π) (m' : Memory), page % pageSize4K = 0 → frame page = some p →
    page ≤ lo → va ≤ lo → lo < hi → hi ≤ page + pageSize4K → hi ≤ stop →
    FilledTo (placeOf frame tgt) new va lo m m' →
    ∃ bytes, put p (lo - page) (hi - lo) (lo - va) m' = .ok (m'.store (tgt p + (lo - page)) bytes) ∧
      lo + bytes.length = hi ∧ ∀ j < bytes.length, bytes[j]? = some (new (lo + j))

/-- No two bytes of the range have one place. -/
def OnePlace (place : Nat → Option Nat) (va stop : Nat) : Prop :=
  ∀ x y a, va ≤ x → x < stop → va ≤ y → y < stop → place x = some a → place y = some a → x = y

theorem Puts.page (hput : Puts frame tgt new put va stop m)
    (hone : OnePlace (placeOf frame tgt) va stop) {page lo : Nat} (hi : Nat) {p : π}
    (hpage : page % pageSize4K = 0) (hp : frame page = some p) (hlo : page ≤ lo) (hva : va ≤ lo)
    (hlt : lo < hi) (hhi : hi ≤ page + pageSize4K) (hstop : hi ≤ stop)
    (h : FilledTo (placeOf frame tgt) new va lo m m') :
    ∃ m'', put p (lo - page) (hi - lo) (lo - va) m' = .ok m'' ∧
      FilledTo (placeOf frame tgt) new va hi m m'' := by
  obtain ⟨bytes, hok, hlen, hbytes⟩ := hput page lo hi p m' hpage hp hlo hva hlt hhi hstop h
  refine ⟨_, hok, h.store hva (fun x y a hx hx' hy hy' => hone x y a hx (by omega) hy (by omega))
    hlen fun j hj => ⟨?_, hbytes j hj⟩⟩
  rw [placeOf_eq hpage hp (by omega) (by omega), show lo + j - page = lo - page + j by omega,
    Nat.add_assoc]

/-- How far the range is filled when the pages below `page` are. -/
def reach (va stop page : Nat) : Nat :=
  min (max page va) stop

theorem fillPages_filled (hput : Puts frame tgt new put va stop m)
    (hone : OnePlace (placeOf frame tgt) va stop) {b : Batch} (hb : b.va % pageSize4K = 0)
    {i page : Nat} (hi : page = b.va + i * pageSize4K) {ps : List π}
    (hps : ∀ j < ps.length, ps[j]? = frame (b.va + (i + j) * pageSize4K))
    (hlow : va < page + pageSize4K)
    (hhigh : page + ps.length * pageSize4K < stop + pageSize4K) (hstop : va < stop)
    (h : FilledTo (placeOf frame tgt) new va (reach va stop page) m m') :
    ∃ m'', fillPages put b va stop ps i (reach va stop page - va) m' =
        (.ok (reach va stop (page + ps.length * pageSize4K) - va), m'') ∧
      FilledTo (placeOf frame tgt) new va (reach va stop (page + ps.length * pageSize4K)) m
        m'' := by
  have hsize : pageSize4K = 4096 := rfl
  induction ps generalizing i page m' with
  | nil =>
    rw [List.length_nil, Nat.zero_mul, Nat.add_zero]
    exact ⟨m', rfl, h⟩
  | cons p ps ih =>
    rw [List.length_cons, Nat.succ_mul, Nat.add_comm (ps.length * pageSize4K),
      ← Nat.add_assoc] at hhigh ⊢
    have hp : frame page = some p := by
      rw [hi]
      exact (hps 0 (by simp)).symm
    have hnext : page + pageSize4K = b.va + (i + 1) * pageSize4K := by
      rw [hi, Nat.succ_mul, Nat.add_assoc]
    have hrest : ∀ j < ps.length, ps[j]? = frame (b.va + (i + 1 + j) * pageSize4K) := by
      intro j hj
      have := hps (j + 1) (by simpa using hj)
      rwa [List.getElem?_cons_succ, show i + (j + 1) = i + 1 + j by omega] at this
    have hpage : page % pageSize4K = 0 := by
      rw [hi, Nat.add_mul_mod_self_right]
      exact hb
    have hspan : span b i va stop = (max page va - page,
        min (page + pageSize4K) stop - max page va) := by
      rw [hi]
      rfl
    rw [fillPages, hspan]
    clear hspan hps hi hb
    have hin : page < stop := by omega
    have hlo : reach va stop page = max page va := by
      unfold reach
      omega
    have hhi : reach va stop (page + pageSize4K) = min (page + pageSize4K) stop := by
      unfold reach
      omega
    rw [hlo] at h ⊢
    rw [← hhi]
    obtain ⟨m'', hok, hfilled⟩ := hput.page hone (reach va stop (page + pageSize4K)) hpage hp
      (Nat.le_max_left _ _) (Nat.le_max_right _ _) (by omega) (by omega) (by omega) h
    dsimp only
    rw [hok, show max page va - va + (reach va stop (page + pageSize4K) - max page va) =
      reach va stop (page + pageSize4K) - va by omega]
    exact ih hnext hrest (by omega) hhigh hfilled

/-- A batch is of at most 64 pages of one leaf table. -/
def Batch.OneTable (b : Batch) : Prop :=
  b.pages ≤ fillBatch ∧ ∀ i < b.pages, (b.va + i * pageSize4K) / leafSpan = b.va / leafSpan

theorem min_saturatingAdd {a b c d stop : Nat} (h : stop < 2 ^ 64) :
    min (min (saturatingAdd a b) (saturatingAdd c d)) stop = min (min (a + b) (c + d)) stop := by
  unfold saturatingAdd
  omega

theorem min_pages {c e : Nat} (h : c < e) :
    min (min (c / 512 * 512 * 4096 + 512 * 4096) (c * 4096 + 64 * 4096)) (e * 4096) =
      (c + min (min (512 - c % 512) 64) (e - c)) * 4096 := by
  omega

/-- The next batch, counted in pages: up to the end of the leaf table, of the batch or of the
range. -/
theorem next_pages {c e : Nat} (fits : e * 4096 < 2 ^ 64) (h : c < e) :
    ∃ k, Batches.next ⟨c * 4096, e * 4096, fits⟩ =
        some (⟨c * 4096, k⟩, ⟨(c + k) * 4096, e * 4096, fits⟩) ∧
      0 < k ∧ k ≤ 64 ∧ c + k ≤ e ∧ ∀ i < k, (c + i) / 512 = c / 512 := by
  have hleaf : c * 4096 / leafSpan = c / 512 := by
    rw [show leafSpan = 4096 * 512 from rfl, ← Nat.div_div_eq_div_mul,
      Nat.mul_div_cancel _ (by omega)]
  refine ⟨min (min (512 - c % 512) 64) (e - c), ?_, by omega, by omega, by omega, by omega⟩
  unfold Batches.next
  dsimp only
  rw [if_neg (by omega), min_saturatingAdd fits, hleaf, show leafSpan = 512 * 4096 from rfl,
    show fillBatch * pageSize4K = 64 * 4096 from rfl, ← Nat.mul_assoc, min_pages h,
    ← Nat.mul_sub_right_distrib, show pageSize4K = 4096 from rfl,
    Nat.mul_div_cancel _ (by omega), Nat.add_sub_cancel_left]

/-- What a driver leaves that goes through the pages from `c` up to `e`. -/
structure Drives (frame : Nat → Option π) (tgt : π → Nat) (new : Nat → UInt8) (va stop : Nat)
    (m : Memory) (c e : Nat) (r : Filled) : Prop where
  ok : (∀ p, c ≤ p → p < e → (frame (p * pageSize4K)).isSome) →
    r.result = .ok () ∧ FilledTo (placeOf frame tgt) new va stop m r.mem
  error : ¬ (∀ p, c ≤ p → p < e → (frame (p * pageSize4K)).isSome) →
    r.result = .error .unmapped ∧ ∃ hi ≤ stop, FilledTo (placeOf frame tgt) new va hi m r.mem
  holds : ∀ b ∈ r.holds, b.OneTable

theorem oneTable_pages {c k : Nat} (hk : k ≤ 64) (hleaf : ∀ i < k, (c + i) / 512 = c / 512) :
    Batch.OneTable ⟨c * 4096, k⟩ := by
  refine ⟨hk, fun i hi => ?_⟩
  have hdiv (x : Nat) : x * 4096 / leafSpan = x / 512 := by
    rw [show leafSpan = 4096 * 512 from rfl, ← Nat.div_div_eq_div_mul,
      Nat.mul_div_cancel _ (by omega)]
  rw [show pageSize4K = 4096 from rfl, ← Nat.add_mul, hdiv, hdiv, hleaf i hi]

theorem fillFrom_end {bs : Batches} (h : bs.stop ≤ bs.cur) (done : Nat) :
    fillFrom look put va stop bs done m = ⟨.ok (), m, []⟩ := by
  have hnone : bs.next = none := if_pos h
  rw [fillFrom]
  split
  · rfl
  · rename_i hnext
    rw [hnone] at hnext
    cases hnext

theorem fillFrom_drives (hlook : Looks frame look) (hput : Puts frame tgt new put va stop m)
    (hone : OnePlace (placeOf frame tgt) va stop) (hstop : va < stop) {c e : Nat}
    (fits : e * 4096 < 2 ^ 64) (hce : c ≤ e) (hlow : va < c * 4096 + 4096)
    (hend : stop ≤ e * 4096) (hend' : e * 4096 < stop + 4096)
    (h : FilledTo (placeOf frame tgt) new va (reach va stop (c * 4096)) m m') :
    Drives frame tgt new va stop m c e
      (fillFrom look put va stop ⟨c * 4096, e * 4096, fits⟩
        (reach va stop (c * 4096) - va) m') := by
  induction hk : e - c using Nat.strongRecOn generalizing c m' with
  | ind n ih =>
    rcases Nat.eq_or_lt_of_le hce with rfl | hlt
    · have hall : reach va stop (c * 4096) = stop := by
        unfold reach
        omega
      rw [hall] at h
      rw [fillFrom_end (Nat.le_refl _)]
      exact ⟨fun _ => ⟨rfl, h⟩, fun hnot => absurd (fun p hp hp' => absurd hp' (by omega)) hnot,
        nofun⟩
    · rw [fillFrom]
      obtain ⟨k, hnext, hpos, hsmall, hle, hleaf⟩ := next_pages fits hlt
      have htable := oneTable_pages hsmall hleaf
      have hpages (i : Nat) : c * 4096 + i * pageSize4K = (c + i) * pageSize4K :=
        (Nat.add_mul c i 4096).symm
      split
      · rename_i hnone
        rw [hnext] at hnone
        cases hnone
      rename_i b rest hsome
      obtain ⟨rfl, rfl⟩ := Prod.mk.inj (Option.some.inj (hnext.symm.trans hsome))
      by_cases hbatch : ∀ i < k, (frame ((c + i) * pageSize4K)).isSome
      · obtain ⟨ps, hps, hlen, hget⟩ := hlook.ok ⟨c * 4096, k⟩ (by simpa [hpages] using hbatch)
        have hscaled : (c + k) * 4096 ≤ e * 4096 := Nat.mul_le_mul_right _ hle
        have hfit : c * 4096 + ps.length * pageSize4K < stop + pageSize4K := by
          rw [hlen, hpages k]
          exact Nat.lt_of_le_of_lt hscaled hend'
        have hlow' : va < (c + k) * 4096 + 4096 := by
          rw [Nat.add_mul, Nat.add_right_comm]
          exact Nat.lt_add_right _ hlow
        obtain ⟨m'', hfill, hfilled⟩ := fillPages_filled (b := ⟨c * 4096, k⟩) hput hone
          (Nat.mul_mod_left _ _) (i := 0) (by rw [Nat.zero_mul]; exact (Nat.add_zero _).symm)
          (by rw [hlen]; simpa using hget) hlow hfit hstop h
        have hreach : c * 4096 + ps.length * pageSize4K = (c + k) * 4096 := by
          rw [hlen]
          exact hpages k
        rw [hreach] at hfill hfilled
        rw [hps]
        dsimp only
        rw [hfill]
        dsimp only
        obtain ⟨hok, herror, hholds⟩ := ih (e - (c + k)) (by omega) hle hlow' hfilled rfl
        refine ⟨fun hall => hok fun p hp hp' => hall p (by omega) hp', fun hnot =>
          herror fun hall =>
          hnot fun p hp hp' => ?_, ?_⟩
        · rcases Nat.lt_or_ge p (c + k) with hin | hout
          · have := hbatch (p - c) (by omega)
            rwa [show c + (p - c) = p by omega] at this
          · exact hall p hout hp'
        · intro b hb
          rcases List.mem_cons.mp hb with rfl | hb
          · exact htable
          · exact hholds b hb
      · rw [hlook.error ⟨c * 4096, k⟩ (by simpa [hpages] using hbatch)]
        refine ⟨fun hall => absurd (fun i hi => hall (c + i) (by omega) (by omega)) hbatch,
          fun _ => ⟨rfl, _, ?_, h⟩, ?_⟩
        · exact Nat.min_le_right _ _
        · simpa using htable

theorem pages_iff (hstop : va < stop) {P : Nat → Prop} :
    (∀ p, va / 4096 ≤ p → p < (stop + 4095) / 4096 → P p) ↔
      ∀ x, va ≤ x → x < stop → P (x / 4096) := by
  constructor
  · intro h x hx hx'
    exact h (x / 4096) (Nat.div_le_div_right hx) (by omega)
  · intro h p hp hp'
    have := h (max va (p * 4096)) (Nat.le_max_left _ _) (by omega)
    rwa [show max va (p * 4096) / 4096 = p by omega] at this

/-- What a driver does: it returns `Ok` exactly when the range is accepted and `present` on all of
it, and has set its bytes then; other bytes never change, and every hold is of one leaf table. -/
structure Fills (place : Nat → Option Nat) (present : Nat → Prop) (new : Nat → UInt8) (va len : Nat)
    (m : Memory) (r : Filled) : Prop where
  ok_iff : r.result = .ok () ↔
    userRangeOk va len = true ∧ ∀ x, va ≤ x → x < va + len → present x
  ok : r.result = .ok () → FilledTo place new va (va + len) m r.mem
  outside : ∀ a, (∀ x, va ≤ x → x < va + len → place x ≠ some a) → r.mem a = m a
  holds : ∀ b ∈ r.holds, b.OneTable

theorem userRangeOk_end {va len : Nat} (h : userRangeOk va len = true) : va + len ≤ userMapEnd := by
  unfold userRangeOk at h
  split at h
  · have := of_decide_eq_true h
    omega
  · split at h
    · exact (of_decide_eq_true h).2
    · cases h

theorem fill_fills {va : VirtAddr} {len : Nat} (hlook : Looks frame look)
    (hput : va.val + len ≤ userMapEnd → Puts frame tgt new put va.val (va.val + len) m)
    (hone : va.val + len ≤ userMapEnd → OnePlace (placeOf frame tgt) va.val (va.val + len)) :
    Fills (placeOf frame tgt) (fun x => (frame (x / pageSize4K * pageSize4K)).isSome) new
      va.val len m
      (fill look put va len m) := by
  unfold fill
  by_cases hrange : userRangeOk va.val len = true
  · rw [if_pos hrange]
    have hend := userRangeOk_end hrange
    have hfit : userMapEnd + 4096 < 2 ^ 64 := by decide
    rcases Nat.eq_zero_or_pos len with rfl | hlen
    · have hbatches : (batches va 0).stop ≤ (batches va 0).cur := by
        unfold batches
        rw [dif_neg (by simp)]
      rw [fillFrom_end hbatches]
      exact ⟨⟨fun _ => ⟨hrange, fun x hx hx' => absurd hx' (by omega)⟩, fun _ => rfl⟩,
        fun _ => FilledTo.refl _ _ _ _, fun _ _ => rfl, nofun⟩
    · have hbatches : batches va len =
          ⟨va.val / 4096 * 4096, (va.val + len + 4095) / 4096 * 4096, by omega⟩ :=
        dif_pos ⟨by omega, by change va.val + len + 4095 < 2 ^ 64; omega⟩
      have hreach : reach va.val (va.val + len) (va.val / 4096 * 4096) = va.val := by
        unfold reach
        omega
      have hdrives := fillFrom_drives hlook (hput hend) (hone hend) (by omega) (c := va.val / 4096)
        (e := (va.val + len + 4095) / 4096) (by omega) (by omega) (by omega) (by omega) (by omega)
        (by rw [hreach]; exact FilledTo.refl _ _ _ m)
      rw [hreach, Nat.sub_self, ← hbatches] at hdrives
      obtain ⟨hok, herror, hholds⟩ := hdrives
      have hpages := pages_iff (P := fun p => (frame (p * pageSize4K)).isSome = true)
        (show va.val < va.val + len by omega)
      rw [hpages] at hok herror
      by_cases hall : ∀ x, va.val ≤ x → x < va.val + len →
          (frame (x / 4096 * pageSize4K)).isSome = true
      · obtain ⟨hres, hfilled⟩ := hok hall
        exact ⟨⟨fun _ => ⟨hrange, hall⟩, fun _ => hres⟩, fun _ => hfilled, hfilled.outside, hholds⟩
      · obtain ⟨hres, hi, hle, hfilled⟩ := herror hall
        refine ⟨⟨fun h => ?_, fun h => absurd h.2 hall⟩, fun h => ?_,
          fun a ha => hfilled.outside a fun x hx hx' => ha x hx (by omega), hholds⟩
        · rw [hres] at h
          cases h
        · rw [hres] at h
          cases h
  · rw [if_neg hrange]
    exact ⟨⟨nofun, fun h => absurd h.1 hrange⟩, nofun, fun _ _ => rfl, nofun⟩

end Driver

section Lookup
variable {α β : Type}

theorem mapM_lookup {g : Nat → Option α} {f : Nat → Except FillError α}
    (hsome : ∀ i a, g i = some a → f i = .ok a) (hnone : ∀ i, g i = none → f i = .error .unmapped)
    (l : List Nat) :
    ((∀ i ∈ l, (g i).isSome) → ∃ ps : List α, l.mapM f = .ok ps ∧ ps.length = l.length ∧
        ∀ j : Nat, ps[j]? = l[j]?.bind g) ∧
      (¬ (∀ i ∈ l, (g i).isSome) → l.mapM f = .error .unmapped) := by
  induction l with
  | nil => exact ⟨fun _ => ⟨[], rfl, rfl, fun _ => by simp⟩, fun h => absurd nofun h⟩
  | cons i l ih =>
    rw [List.mapM_cons]
    cases hi : g i with
    | none =>
      rw [hnone i hi]
      exact ⟨fun h => by simpa [hi] using h i List.mem_cons_self, fun _ => rfl⟩
    | some a =>
      rw [hsome i a hi]
      refine ⟨fun h => ?_, fun h => ?_⟩
      · obtain ⟨ps, hps, hlen, hget⟩ := ih.1 fun j hj => h j (List.mem_cons_of_mem _ hj)
        refine ⟨a :: ps, by rw [hps]; rfl, by simp [hlen], fun j => ?_⟩
        cases j with
        | zero => simp [hi]
        | succ j => simpa using hget j
      · have hrest := ih.2 fun hl => h fun j hj => by
          rcases List.mem_cons.mp hj with rfl | hj
          · simp [hi]
          · exact hl j hj
        rw [hrest]
        rfl

theorem lookup_looks (space : Mapper) : Looks (userFrame space) (lookup space) := by
  have hlook (b : Batch) := mapM_lookup (g := fun i => userFrame space (b.va + i * pageSize4K))
    (f := fun i => (userFrame space (b.va + i * pageSize4K)).elim (.error .unmapped) .ok)
    (fun i a h => by rw [h]; rfl) (fun i h => by rw [h]; rfl) (List.range b.pages)
  have heq (b : Batch) : lookup space b = (List.range b.pages).mapM fun i =>
      (userFrame space (b.va + i * pageSize4K)).elim (.error .unmapped) .ok := by
    unfold lookup
    congr 1
    funext i
    cases userFrame space (b.va + i * pageSize4K) <;> rfl
  refine ⟨fun b hall => ?_, fun b hnot => ?_⟩
  · obtain ⟨ps, hps, hlen, hget⟩ := (hlook b).1 fun i hi => hall i (List.mem_range.mp hi)
    refine ⟨ps, ?_, by simpa using hlen, fun i hi => ?_⟩
    · rw [heq]
      exact hps
    · rw [hget, List.getElem?_range hi]
      rfl
  · rw [heq]
    exact (hlook b).2 fun hall => hnot fun i hi => hall i (List.mem_range.mpr hi)

theorem Looks.zip {f : Nat → Option α} {g : Nat → Option β}
    {look : Batch → Except FillError (List α)} {look' : Batch → Except FillError (List β)}
    (h : Looks f look) (h' : Looks g look') :
    Looks (fun page => (f page).bind fun a => (g page).map fun b => (a, b))
      (fun b => do return (← look b).zip (← look' b)) where
  ok b hall := by
    have hboth : ∀ i < b.pages, (f (b.va + i * pageSize4K)).isSome ∧
        (g (b.va + i * pageSize4K)).isSome := fun i hi => by
      have := hall i hi
      cases hf : f (b.va + i * pageSize4K) <;> cases hg : g (b.va + i * pageSize4K) <;> simp_all
    obtain ⟨ps, hps, hlen, hget⟩ := h.ok b fun i hi => (hboth i hi).1
    obtain ⟨qs, hqs, hlen', hget'⟩ := h'.ok b fun i hi => (hboth i hi).2
    refine ⟨ps.zip qs, by rw [hps, hqs]; rfl, by simp [hlen, hlen'], fun i hi => ?_⟩
    rw [List.zip, List.getElem?_zipWith, hget i hi, hget' i hi]
    cases f (b.va + i * pageSize4K) <;> cases g (b.va + i * pageSize4K) <;> rfl
  error b hnot := by
    by_cases hall : ∀ i < b.pages, (f (b.va + i * pageSize4K)).isSome
    · obtain ⟨ps, hps, -⟩ := h.ok b hall
      rw [hps, h'.error b fun hall' => hnot fun i hi => ?_]
      · rfl
      · have hf := hall i hi
        have hg := hall' i hi
        cases hf' : f (b.va + i * pageSize4K) <;> cases hg' : g (b.va + i * pageSize4K) <;>
          simp_all
    · rw [h.error b hall]
      rfl

end Lookup

theorem translateFrom_aligned {space : Mapper} {page level table pa flags : Nat}
    {size : Mm.PageSize} (hpage : page % 4096 = 0)
    (h : space.translateFrom page level table = some (pa, size, flags)) : pa % 4096 = 0 := by
  induction level generalizing table with
  | zero => cases h
  | succ level ih =>
    unfold Mapper.translateFrom at h
    dsimp only at h
    split at h
    · cases h
    split at h
    · have hbase (entry : Nat) : Mm.entryPhys entry % 4096 = 0 := by
        unfold Mm.entryPhys
        rw [show (4096 : Nat) = 2 ^ 12 from rfl, Nat.and_mod_two_pow]
        simp [Mm.pteAddrMask]
      have hoffset (size : Mm.PageSize) : (page &&& (size.bytes - 1)) % 4096 = 0 := by
        cases size with
        | size4K =>
          change (page &&& 2 ^ 12 - 1) % 4096 = 0
          rw [Nat.and_two_pow_sub_one_eq_mod]
          omega
        | size2M =>
          change (page &&& 2 ^ 21 - 1) % 4096 = 0
          rw [Nat.and_two_pow_sub_one_eq_mod]
          omega
      obtain ⟨rfl, -⟩ := Prod.mk.inj (Option.some.inj h)
      rw [Nat.add_mod, hbase, hoffset]
    · exact ih h

theorem userFrame_aligned {space : Mapper} {page a : Nat} (hpage : page % 4096 = 0)
    (h : userFrame space page = some a) : a % 4096 = 0 := by
  unfold userFrame at h
  split at h
  · rename_i htranslate
    split at h
    · cases h
      exact translateFrom_aligned hpage htranslate
    · cases h
  · cases h

/-- No two user pages map one frame. -/
def DistinctFrames (space : Mapper) : Prop :=
  ∀ p q a, p * pageSize4K < userMapEnd → q * pageSize4K < userMapEnd →
    userFrame space (p * pageSize4K) = some a → userFrame space (q * pageSize4K) = some a → p = q

/-- No frame is under a user page of both. -/
def NoCommonFrame (source target : Mapper) : Prop :=
  ∀ p q a, p * pageSize4K < userMapEnd → q * pageSize4K < userMapEnd →
    userFrame source (p * pageSize4K) = some a → userFrame target (q * pageSize4K) ≠ some a

/-- Where a user address lies in physical memory. -/
def place (space : Mapper) (x : Nat) : Option Nat :=
  placeOf (userFrame space) id x

/-- The page of a user address has a present user leaf. -/
def Present (space : Mapper) (x : Nat) : Prop :=
  (userFrame space (x / pageSize4K * pageSize4K)).isSome

section
variable {space source target : Mapper} {x a : Nat}

theorem place_eq_some : place space x = some a ↔
    ∃ f, userFrame space (x / pageSize4K * pageSize4K) = some f ∧ f % 4096 = 0 ∧
      a = f + x % 4096 := by
  unfold place placeOf
  constructor
  · intro h
    obtain ⟨f, hf, rfl⟩ := Option.map_eq_some_iff.mp h
    exact ⟨f, hf, userFrame_aligned (Nat.mul_mod_left _ _) hf, rfl⟩
  · rintro ⟨f, hf, -, rfl⟩
    rw [hf]
    rfl

theorem DistinctFrames.onePlace (h : DistinctFrames space) {va stop : Nat}
    (hstop : stop ≤ userMapEnd) :
    OnePlace (place space) va stop := by
  intro x y a _ hx _ hy hxa hya
  obtain ⟨f, hf, hfa, rfl⟩ := place_eq_some.mp hxa
  obtain ⟨g, hg, hga, heq⟩ := place_eq_some.mp hya
  obtain rfl : f = g := by omega
  have hpage := h (x / pageSize4K) (y / pageSize4K) f
    (by change x / 4096 * 4096 < userMapEnd; omega) (by change y / 4096 * 4096 < userMapEnd; omega)
    hf hg
  change x / 4096 = y / 4096 at hpage
  omega

theorem write_puts (space : Mapper) (va : VirtAddr) (src : List UInt8) (m : Memory) :
    Puts (userFrame space) id (fun x => src.getD (x - va.val) 0)
      (fun pa off n done m =>
        if done + n ≤ src.length then .ok (m.store (pa + off) ((src.drop done).take n))
        else .error .range)
      va.val (va.val + src.length) m := by
  intro page lo hi p m' _ _ _ hva hlt _ hstop _
  have hlen : ((src.drop (lo - va.val)).take (hi - lo)).length = hi - lo := by
    rw [List.length_take, List.length_drop]
    omega
  refine ⟨(src.drop (lo - va.val)).take (hi - lo), if_pos (by omega), by omega, fun j hj => ?_⟩
  dsimp only
  rw [List.getElem?_take_of_lt (by omega), List.getElem?_drop, List.getD_eq_getElem?_getD,
    show lo + j - va.val = lo - va.val + j by omega, List.getElem?_eq_getElem (by omega)]
  rfl

theorem zero_puts (space : Mapper) (va stop : Nat) (m : Memory) :
    Puts (userFrame space) id (fun _ => 0)
      (fun pa off n _ m => .ok (m.store (pa + off) (List.replicate n 0))) va stop m := by
  intro page lo hi p m' _ _ _ _ hlt _ _ _
  refine ⟨List.replicate (hi - lo) 0, rfl, by rw [List.length_replicate]; omega, fun j hj => ?_⟩
  rw [List.length_replicate] at hj
  exact List.getElem?_replicate_of_lt hj

def userByte (space : Mapper) (m : Memory) (x : Nat) : UInt8 :=
  ((place space x).map m).getD 0

/-- The frames of a page in both spaces. -/
def bothFrames (source target : Mapper) (page : Nat) : Option (Nat × Nat) :=
  (userFrame source page).bind fun a => (userFrame target page).map fun b => (a, b)

theorem bothFrames_eq_some {page : Nat} {p : Nat × Nat} : bothFrames source target page = some p ↔
    userFrame source page = some p.1 ∧ userFrame target page = some p.2 := by
  obtain ⟨a, b⟩ := p
  unfold bothFrames
  cases userFrame source page <;> cases userFrame target page <;> simp

theorem getElem?_slice {m : Memory} {a n j : Nat} (h : j < n) :
    (m.slice a n)[j]? = some (m (a + j)) := by
  rw [List.getElem?_eq_getElem (by rwa [Memory.length_slice]), getElem_slice]

theorem copy_puts (hcommon : NoCommonFrame source target) {va stop : Nat}
    (hstop : stop ≤ userMapEnd) (m : Memory) :
    Puts (bothFrames source target) Prod.snd (userByte source m)
      (fun p off n _ m =>
        if p.1 = p.2 then .error .range
        else .ok (m.store (p.2 + off) (m.slice (p.1 + off) n)))
      va stop m := by
  have hsize : pageSize4K = 4096 := rfl
  intro page lo hi p m' hpage hp hlo hva hlt hhi hend h
  obtain ⟨hsrc, hdst⟩ := bothFrames_eq_some.mp hp
  have halign := userFrame_aligned hpage hsrc
  have huser : page < userMapEnd := by omega
  obtain ⟨k, hk⟩ : ∃ k, page = k * pageSize4K :=
    ⟨page / pageSize4K, (Nat.div_mul_cancel (Nat.dvd_of_mod_eq_zero hpage)).symm⟩
  have hne (q : Nat) (hq : q * pageSize4K < userMapEnd) :
      userFrame target (q * pageSize4K) ≠ some p.1 :=
    hcommon k q p.1 (hk ▸ huser) hq (hk ▸ hsrc)
  refine ⟨m'.slice (p.1 + (lo - page)) (hi - lo), if_neg fun heq => ?_, ?_, fun j hj => ?_⟩
  · exact hne k (hk ▸ huser) (heq ▸ hk ▸ hdst)
  · rw [Memory.length_slice]
    omega
  · rw [Memory.length_slice] at hj
    -- the source's byte is still what it was, since no byte of its frame is filled
    have hkept : m' (p.1 + (lo - page) + j) = m (p.1 + (lo - page) + j) := by
      refine h.outside _ fun x hx hx' hplace => ?_
      obtain ⟨q, hq, hqa⟩ := Option.map_eq_some_iff.mp hplace
      obtain ⟨-, htarget⟩ := bothFrames_eq_some.mp hq
      have halign' := userFrame_aligned (Nat.mul_mod_left _ _) htarget
      refine hne (x / pageSize4K) ((Nat.div_mul_le_self _ _).trans_lt (by omega)) ?_
      rw [htarget]
      congr 1
      rw [hsize] at hhi hqa
      clear hk
      omega
    have hplace : place source (lo + j) = some (p.1 + (lo - page) + j) := by
      rw [place, placeOf_eq hpage hsrc (by omega) (by omega),
        show lo + j - page = lo - page + j by omega, Nat.add_assoc]
      rfl
    rw [getElem?_slice hj, userByte, hplace, hkept]
    rfl

theorem place_of_both (h : placeOf (bothFrames source target) Prod.snd x = some a) :
    place target x = some a := by
  obtain ⟨p, hp, rfl⟩ := Option.map_eq_some_iff.mp h
  exact Option.map_eq_some_iff.mpr ⟨p.2, (bothFrames_eq_some.mp hp).2, rfl⟩

theorem copy_fills (htarget : DistinctFrames target) (hcommon : NoCommonFrame source target)
    (va : VirtAddr) (len : Nat) (m : Memory) :
    Fills (place target) (fun x => Present source x ∧ Present target x)
      (userByte source m) va.val len
      m (copy source target va len m) := by
  have hfills : Fills (placeOf (bothFrames source target) Prod.snd) _ (userByte source m) va.val len
      m (copy source target va len m) :=
    fill_fills ((lookup_looks source).zip (lookup_looks target))
      (fun hend => copy_puts hcommon hend m)
      (fun hend x y a hx hx' hy hy' hxa hya =>
        htarget.onePlace hend x y a hx hx' hy hy' (place_of_both hxa) (place_of_both hya))
  have hboth (x : Nat) : (bothFrames source target (x / pageSize4K * pageSize4K)).isSome = true ↔
      Present source x ∧ Present target x := by
    unfold bothFrames Present
    cases userFrame source (x / pageSize4K * pageSize4K) <;>
      cases userFrame target (x / pageSize4K * pageSize4K) <;> simp
  refine ⟨hfills.ok_iff.trans (and_congr_right fun _ => ?_), fun hok => ⟨?_, ?_⟩, ?_, hfills.holds⟩
  · exact forall_congr' fun x => imp_congr_right fun _ => imp_congr_right fun _ => hboth x
  · intro x hx hx'
    obtain ⟨a, ha, hm⟩ := (hfills.ok hok).inside x hx hx'
    exact ⟨a, place_of_both ha, hm⟩
  · intro a ha
    exact (hfills.ok hok).outside a fun x hx hx' h => ha x hx hx' (place_of_both h)
  · intro a ha
    exact hfills.outside a fun x hx hx' h => ha x hx hx' (place_of_both h)

/-- Writing, zeroing and copying into a space whose user pages map distinct frames set exactly the
bytes of the range, or fail on a range or a page that is not there with no byte outside the range
changed. -/
theorem fills_exact :
    (∀ (space : Mapper) (va : VirtAddr) (src : List UInt8) (m : Memory), DistinctFrames space →
      Fills (place space) (Present space) (fun x => src.getD (x - va.val) 0) va.val src.length m
        (write space va src m)) ∧
    (∀ (space : Mapper) (va : VirtAddr) (len : Nat) (m : Memory), DistinctFrames space →
      Fills (place space) (Present space) (fun _ => 0) va.val len m (zero space va len m)) ∧
    ∀ (source target : Mapper) (va : VirtAddr) (len : Nat) (m : Memory), DistinctFrames target →
      NoCommonFrame source target →
      Fills (place target) (fun x => Present source x ∧ Present target x) (userByte source m) va.val
        len m (copy source target va len m) := by
  refine ⟨fun space va src m hspace => ?_, fun space va len m hspace => ?_,
    fun source target va len m htarget hcommon => copy_fills htarget hcommon va len m⟩
  · exact fill_fills (lookup_looks space) (fun _ => write_puts space va src m) hspace.onePlace
  · exact fill_fills (lookup_looks space) (fun _ => zero_puts space va.val _ m) hspace.onePlace

end

/-- A space whose three pages from `0x5FE000` on map the frames from `base` on, the last one
through the next leaf table. -/
def threePages (base : Nat) : Mapper where
  root := 0x1000
  mem table i :=
    if table = 0x1000 ∧ i = 0 then 0x2007
    else if table = 0x2000 ∧ i = 0 then 0x3007
    else if table = 0x3000 ∧ i = 2 then 0x4007
    else if table = 0x3000 ∧ i = 3 then 0x5007
    else if table = 0x4000 ∧ 510 ≤ i then base + (i - 510) * 0x1000 + 7
    else if table = 0x5000 ∧ i = 0 then base + 0x2007
    else 0
  calls := 0

theorem index_eq (va level : Nat) : Mm.index va level = va / 2 ^ (12 + 9 * (level - 1)) % 512 := by
  unfold Mm.index
  rw [Nat.shiftRight_eq_div_pow]
  exact Nat.and_two_pow_sub_one_eq_mod _ 9

theorem threePages_page {base page a : Nat} (hpage : page < userMapEnd)
    (h : userFrame (threePages base) page = some a) :
    0x5FE ≤ page / 4096 ∧ page / 4096 ≤ 0x600 := by
  have hend : userMapEnd = 0x7FFFFFFFF000 := rfl
  by_contra hne
  have hmiss : Mm.index page 4 ≠ 0 ∨ Mm.index page 4 = 0 ∧ (Mm.index page 3 ≠ 0 ∨
      Mm.index page 3 = 0 ∧ (Mm.index page 2 ≠ 2 ∧ Mm.index page 2 ≠ 3 ∨
        Mm.index page 2 = 2 ∧ ¬ 510 ≤ Mm.index page 1 ∨
        Mm.index page 2 = 3 ∧ Mm.index page 1 ≠ 0)) := by
    simp only [index_eq]
    omega
  have hnone : userFrame (threePages base) page = none := by
    rcases hmiss with h4 | ⟨h4, h3 | ⟨h3, ⟨h2, h2'⟩ | ⟨h2, h1⟩ | ⟨h2, h1⟩⟩⟩ <;>
      simp [userFrame, Mapper.translate, Mm.levels, Mapper.translateFrom, threePages, *,
        Mm.isPresent, Mm.isHuge, Mm.entryFlags, Mm.entryPhys, Mm.PageFlags.contains,
        Mm.PageFlags.present, Mm.PageFlags.huge, Mm.pteFlagsMask, Mm.pteAddrMask]
  rw [hnone] at h
  cases h

theorem threePages_frame {base p a : Nat} (hbase : base = 0x8000 ∨ base = 0x10000)
    (hp : p * pageSize4K < userMapEnd)
    (h : userFrame (threePages base) (p * pageSize4K) = some a) :
    0x5FE ≤ p ∧ p ≤ 0x600 ∧ a = base + (p - 0x5FE) * 0x1000 := by
  have hpage := threePages_page hp h
  change 0x5FE ≤ p * 4096 / 4096 ∧ p * 4096 / 4096 ≤ 0x600 at hpage
  have hlo : 0x5FE ≤ p := by omega
  have hhi : p ≤ 0x600 := by omega
  have hframe : userFrame (threePages base) (p * pageSize4K) =
      some (base + (p - 0x5FE) * 0x1000) := by
    obtain rfl | rfl | rfl : p = 0x5FE ∨ p = 0x5FF ∨ p = 0x600 := by omega
    all_goals rcases hbase with rfl | rfl <;> decide
  exact ⟨hlo, hhi, Option.some.inj (h.symm.trans hframe)⟩

theorem threePages_distinct {base : Nat} (hbase : base = 0x8000 ∨ base = 0x10000) :
    DistinctFrames (threePages base) := by
  intro p q a hp hq hpa hqa
  have hp' := threePages_frame hbase hp hpa
  have hq' := threePages_frame hbase hq hqa
  omega

theorem threePages_noCommon : NoCommonFrame (threePages 0x8000) (threePages 0x10000) := by
  intro p q a hp hq hpa hqa
  have hp' := threePages_frame (.inl rfl) hp hpa
  have hq' := threePages_frame (.inr rfl) hq hqa
  omega

/-- From the last byte of the first page to the first of the third, past the end of a leaf table,
the range can be written and copied. No page is there after them. -/
theorem fills_exact_threePages :
    let w := write (threePages 0x8000) ⟨0x5FEFFF, by decide⟩ (List.replicate 4098 7) fun _ => 0
    let c := copy (threePages 0x8000) (threePages 0x10000) ⟨0x5FEFFF, by decide⟩ 4098 w.mem
    w.result = .ok () ∧ w.mem 0xA000 = 7 ∧ c.result = .ok () ∧ c.mem 0x12000 = 7 ∧
      (zero (threePages 0x8000) ⟨0x5FEFFF, by decide⟩ 8194 fun _ => 1).result ≠ .ok () := by
  intro w c
  obtain ⟨hwrite, hzero, hcopy⟩ := fills_exact
  have hpresent {x : Nat} (h : 0x5FEFFF ≤ x) (h' : x < 0x600001) :
      Present (threePages 0x8000) x ∧ Present (threePages 0x10000) x := by
    have hpage : x / 4096 = 0x5FE ∨ x / 4096 = 0x5FF ∨ x / 4096 = 0x600 := by omega
    unfold Present
    change (userFrame _ (x / 4096 * 4096)).isSome ∧ (userFrame _ (x / 4096 * 4096)).isSome
    rcases hpage with hx | hx | hx <;> rw [hx] <;> decide
  have hw := hwrite (threePages 0x8000) ⟨0x5FEFFF, by decide⟩ (List.replicate 4098 7) (fun _ => 0)
    (threePages_distinct (.inl rfl))
  have hc := hcopy (threePages 0x8000) (threePages 0x10000) ⟨0x5FEFFF, by decide⟩ 4098 w.mem
    (threePages_distinct (.inr rfl)) threePages_noCommon
  have hwok : w.result = .ok () := by
    refine hw.ok_iff.mpr ⟨?_, fun x hx hx' => ?_⟩
    · rw [List.length_replicate]
      decide
    · rw [List.length_replicate] at hx'
      exact (hpresent hx hx').1
  have hcok : c.result = .ok () :=
    hc.ok_iff.mpr ⟨by decide, fun x hx hx' => hpresent hx hx'⟩
  have hplace : place (threePages 0x8000) 0x600000 = some 0xA000 := by decide
  have hwmem : w.mem 0xA000 = 7 := by
    obtain ⟨a, ha, hset⟩ := (hw.ok hwok).inside 0x600000 (by decide)
      (by rw [List.length_replicate]; decide)
    obtain rfl := Option.some.inj (hplace.symm.trans ha)
    rw [hset, List.getD_eq_getElem _ _ (by rw [List.length_replicate]; decide),
      List.getElem_replicate]
  have hcmem : c.mem 0x12000 = 7 := by
    obtain ⟨a, ha, hset⟩ := (hc.ok hcok).inside 0x600000 (by decide) (by decide)
    have hplace' : place (threePages 0x10000) 0x600000 = some 0x12000 := by decide
    obtain rfl := Option.some.inj (hplace'.symm.trans ha)
    rw [hset, userByte, hplace]
    exact hwmem
  refine ⟨hwok, hwmem, hcok, hcmem, fun hok => ?_⟩
  have habsent := ((hzero _ _ _ _ (threePages_distinct (.inl rfl))).ok_iff.mp hok).2 0x601000
    (by decide) (by decide)
  exact absurd habsent (by unfold Present; decide)

end VibeOS.Process
