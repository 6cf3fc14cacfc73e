import Mathlib.Algebra.BigOperators.Ring.Finset
import Mathlib.Algebra.Order.Ring.Nat
import Mathlib.Data.List.Count
import Mathlib.Order.Interval.Finset.Nat

/-!
How often a list of half-open intervals covers a point. Pieces tile a whole when they
cover every point as often as the whole does, so cutting a piece, joining two and
reordering them keep a tiling, and the pieces of a whole that covers no point twice are
pairwise apart.
-/
namespace VibeOS.Lib
variable {α : Type*} [LinearOrder α] {l l₁ l₂ whole : List (α × α)} {r s : α × α} {x a b c : α}

def Within (r : α × α) (x : α) : Prop :=
  r.1 ≤ x ∧ x < r.2

instance (r : α × α) (x : α) : Decidable (Within r x) :=
  inferInstanceAs (Decidable (_ ∧ _))

def cover (l : List (α × α)) (x : α) : Nat :=
  l.countP fun r => Within r x

def Apart (r s : α × α) : Prop :=
  ∀ x, Within r x → ¬ Within s x

def Tiles (pieces whole : List (α × α)) : Prop :=
  ∀ x, cover pieces x = cover whole x

@[simp] theorem cover_nil (x : α) : cover ([] : List (α × α)) x = 0 :=
  rfl

@[simp] theorem cover_append (l₁ l₂ : List (α × α)) (x : α) :
    cover (l₁ ++ l₂) x = cover l₁ x + cover l₂ x :=
  List.countP_append

theorem cover_cons (r : α × α) (l : List (α × α)) (x : α) :
    cover (r :: l) x = cover l x + if Within r x then 1 else 0 := by
  simp [cover, List.countP_cons]

theorem cover_pos : 0 < cover l x ↔ ∃ r ∈ l, Within r x := by
  simp [cover, List.countP_pos_iff]

theorem cover_perm (h : l₁.Perm l₂) (x : α) : cover l₁ x = cover l₂ x :=
  h.countP_eq _

theorem apart_of_cover_le_one (h : ∀ x, cover l x ≤ 1) : l.Pairwise Apart := by
  induction l with
  | nil => exact .nil
  | cons r l ih =>
    have htail : ∀ x, cover l x ≤ 1 := by
      intro x
      exact Nat.le_trans (cover_cons r l x ▸ Nat.le_add_right _ _) (h x)
    refine .cons (fun s hs x hr hsx => ?_) (ih htail)
    have h₁ := h x
    rw [cover_cons, if_pos hr] at h₁
    have h₂ : 0 < cover l x := cover_pos.mpr ⟨s, hs, hsx⟩
    omega

theorem cover_le_one_of_apart (h : l.Pairwise Apart) (x : α) : cover l x ≤ 1 := by
  induction h with
  | nil => exact Nat.zero_le _
  | @cons r l hr _ ih =>
    rw [cover_cons]
    split
    · rename_i hx
      have : ¬ 0 < cover l x := fun hpos => by
        obtain ⟨s, hs, hsx⟩ := cover_pos.mp hpos
        exact hr s hs x hx hsx
      omega
    · exact ih

theorem Tiles.perm (h : Tiles l₁ whole) (hp : l₂.Perm l₁) : Tiles l₂ whole :=
  fun x => (cover_perm hp x).trans (h x)

theorem within_split (hab : a ≤ b) (hbc : b ≤ c) (x : α) :
    (if Within (a, b) x then 1 else 0) + (if Within (b, c) x then 1 else 0) =
      if Within (a, c) x then 1 else 0 := by
  rcases lt_or_ge x b with hx | hx
  · have hout : ¬ Within (b, c) x := fun h => absurd h.1 (not_le_of_gt hx)
    have hiff : Within (a, b) x ↔ Within (a, c) x :=
      ⟨fun h => ⟨h.1, lt_of_lt_of_le hx hbc⟩, fun h => ⟨h.1, hx⟩⟩
    rw [if_neg hout, Nat.add_zero, if_congr hiff rfl rfl]
  · have hout : ¬ Within (a, b) x := fun h => absurd h.2 (not_lt_of_ge hx)
    have hiff : Within (b, c) x ↔ Within (a, c) x :=
      ⟨fun h => ⟨le_trans hab hx, h.2⟩, fun h => ⟨hx, h.2⟩⟩
    rw [if_neg hout, Nat.zero_add, if_congr hiff rfl rfl]

theorem cover_join (hr : r.1 ≤ r.2) (hs : s.1 ≤ s.2) (hmeet : r.2 = s.1) (x : α) :
    cover [(r.1, s.2)] x = cover [r] x + cover [s] x := by
  obtain ⟨a, b⟩ := r
  obtain ⟨b', c⟩ := s
  obtain rfl : b = b' := hmeet
  simp only [cover_cons, cover_nil, Nat.zero_add]
  exact (within_split hr hs x).symm

theorem tiles_split {w : List (α × α)} (hab : a ≤ b) (hbc : b ≤ c) :
    Tiles ((a, b) :: (b, c) :: l) w ↔ Tiles ((a, c) :: l) w := by
  have h : ∀ x, cover ((a, b) :: (b, c) :: l) x = cover ((a, c) :: l) x := by
    intro x
    rw [cover_cons, cover_cons, cover_cons, ← within_split hab hbc x, Nat.add_right_comm,
      Nat.add_assoc]
  exact forall_congr' fun x => by rw [h x]

theorem tiles_drop (hba : b ≤ a) : Tiles ((a, b) :: l) whole ↔ Tiles l whole := by
  have h : ∀ x, cover ((a, b) :: l) x = cover l x := by
    intro x
    rw [cover_cons, if_neg, Nat.add_zero]
    exact fun hx => absurd (lt_of_le_of_lt hx.1 hx.2) (not_lt_of_ge hba)
  exact forall_congr' fun x => by rw [h x]

theorem Tiles.apart (h : Tiles (l₁ ++ l₂) whole) (hw : ∀ x, cover whole x ≤ 1) (hr : r ∈ l₁)
    (hs : s ∈ l₂) : Apart r s := by
  have := apart_of_cover_le_one fun x => (h x).symm ▸ hw x
  exact (List.pairwise_append.mp this).2.2 r hr s hs

theorem Tiles.within (h : Tiles l whole) (hr : r ∈ l) (hx : Within r x) :
    ∃ w ∈ whole, Within w x :=
  cover_pos.mp (h x ▸ cover_pos.mpr ⟨r, hr, hx⟩)

theorem cover_steps (a w n x : Nat) :
    cover ((List.range n).map fun i => (a + i * w, a + i * w + w)) x =
      cover [(a, a + n * w)] x := by
  induction n with
  | zero =>
    rw [cover_cons, if_neg]
    · rfl
    · rintro ⟨h₁, h₂⟩
      simp only [Nat.zero_mul, Nat.add_zero] at h₁ h₂
      omega
  | succ n ih =>
    rw [List.range_succ, List.map_append, cover_append, ih, List.map_singleton, cover_cons,
      cover_cons, cover_cons, cover_nil, Nat.zero_add, Nat.zero_add, Nat.zero_add,
      within_split (Nat.le_add_right _ _) (Nat.le_add_right _ _), Nat.succ_mul, Nat.add_assoc]

theorem sum_cover {l : List (Nat × Nat)} {n : Nat} (h : ∀ r ∈ l, r.2 ≤ n) :
    ∑ x ∈ Finset.range n, cover l x = (l.map fun r => r.2 - r.1).sum := by
  induction l with
  | nil => simp
  | cons r l ih =>
    have hr : (Finset.range n).filter (Within r) = Finset.Ico r.1 r.2 := by
      ext x
      have := h r (List.mem_cons_self ..)
      simp only [Finset.mem_filter, Finset.mem_range, Finset.mem_Ico, Within]
      omega
    simp only [cover_cons, Finset.sum_add_distrib, Finset.sum_boole, hr, Nat.card_Ico,
      ih fun s hs => h s (List.mem_cons_of_mem _ hs), List.map_cons, List.sum_cons, Nat.cast_id]
    exact Nat.add_comm _ _

theorem Tiles.sum_length {l whole : List (Nat × Nat)} (h : Tiles l whole) {n : Nat}
    (hl : ∀ r ∈ l, r.2 ≤ n) (hw : ∀ r ∈ whole, r.2 ≤ n) :
    (l.map fun r => r.2 - r.1).sum = (whole.map fun r => r.2 - r.1).sum := by
  rw [← sum_cover hl, ← sum_cover hw]
  exact Finset.sum_congr rfl fun x _ => h x

theorem not_within_end {fs : List (α × α)} (hpos : ∀ r ∈ fs, r.1 < r.2)
    (hs : fs.Pairwise fun r s => r.2 < s.1) (hr : r ∈ fs) (hm : s ∈ fs) : ¬ Within s r.2 := by
  intro hsr
  have hsymm : Std.Symm fun r s : α × α => r.2 < s.1 ∨ s.2 < r.1 := ⟨fun _ _ => Or.symm⟩
  have hor : fs.Pairwise fun r s => r.2 < s.1 ∨ s.2 < r.1 := hs.imp Or.inl
  rcases eq_or_ne s r with rfl | hne
  · exact absurd hsr.2 (lt_irrefl _)
  · rcases hor.forall hm hr hne with hlt | hlt
    · exact absurd (lt_trans hsr.2 (lt_trans hlt (hpos r hr))) (lt_irrefl _)
    · exact absurd hsr.1 (not_le_of_gt hlt)

theorem eq_of_within (hs : l.Pairwise fun r s => r.2 < s.1) (hr : r ∈ l) (hm : s ∈ l)
    (hrx : Within r x) (hsx : Within s x) : r = s := by
  by_contra hne
  have hsymm : Std.Symm fun r s : α × α => r.2 < s.1 ∨ s.2 < r.1 := ⟨fun _ _ => Or.symm⟩
  have hor : l.Pairwise fun r s => r.2 < s.1 ∨ s.2 < r.1 := hs.imp Or.inl
  rcases hor.forall hr hm hne with hlt | hlt
  · exact absurd (lt_of_le_of_lt hsx.1 hrx.2) (not_lt_of_gt hlt)
  · exact absurd (lt_of_le_of_lt hrx.1 hsx.2) (not_lt_of_gt hlt)

theorem exists_around {fs : List (α × α)} (hpos : ∀ r ∈ fs, r.1 < r.2)
    (hs : fs.Pairwise fun r s => r.2 < s.1) (hab : a < b)
    (hcover : ∀ x, Within (a, b) x → 0 < cover fs x) : ∃ r ∈ fs, r.1 ≤ a ∧ b ≤ r.2 := by
  obtain ⟨r, hr, hra⟩ := cover_pos.mp (hcover a ⟨le_rfl, hab⟩)
  refine ⟨r, hr, hra.1, le_of_not_gt fun hlt => ?_⟩
  obtain ⟨s, hm, hsr⟩ := cover_pos.mp (hcover r.2 ⟨le_of_lt hra.2, hlt⟩)
  exact not_within_end hpos hs hr hm hsr

theorem exists_between {fs ls : List (α × α)} (hs : (r :: fs).Pairwise fun s t => s.2 < t.1)
    (hpos : ∀ s ∈ fs, s.1 < s.2) (hapart : ∀ s ∈ fs, ∀ t ∈ ls, Apart s t)
    (hgap : ∀ s ∈ r :: fs, ∀ t ∈ fs, s.2 < t.1 → ∃ g ∈ ls, Within g s.2) :
    ∃ gs : List (α × α), gs.length = fs.length ∧ gs ⊆ ls ∧ gs.Nodup ∧
      ∀ g ∈ gs, ∃ x, r.2 ≤ x ∧ Within g x := by
  induction fs generalizing r with
  | nil => exact ⟨[], rfl, List.nil_subset _, List.nodup_nil, fun g hg => by cases hg⟩
  | cons s fs ih =>
    obtain ⟨hr, hs'⟩ := List.pairwise_cons.mp hs
    have hrs := hr s (List.mem_cons_self ..)
    have hss := hpos s (List.mem_cons_self ..)
    obtain ⟨gs, hlen, hsub, hnd, hafter⟩ := ih hs' (fun t ht => hpos t (List.mem_cons_of_mem _ ht))
      (fun t ht => hapart t (List.mem_cons_of_mem _ ht))
      (fun t ht u hu => hgap t (List.mem_cons_of_mem _ ht) u (List.mem_cons_of_mem _ hu))
    obtain ⟨g, hg, hgr⟩ := hgap r (List.mem_cons_self ..) s (List.mem_cons_self ..) hrs
    refine ⟨g :: gs, congrArg Nat.succ hlen, List.cons_subset.mpr ⟨hg, hsub⟩,
      List.nodup_cons.mpr ⟨fun hmem => ?_, hnd⟩, List.forall_mem_cons.mpr ⟨⟨_, le_rfl, hgr⟩, ?_⟩⟩
    · -- a piece from before `s` to behind it would cover the front of `s`
      obtain ⟨x, hx, hgx⟩ := hafter g hmem
      exact hapart s (List.mem_cons_self ..) g hg s.1 ⟨le_rfl, hss⟩
        ⟨le_of_lt (lt_of_le_of_lt hgr.1 hrs),
          lt_of_lt_of_le hss (le_of_lt (lt_of_le_of_lt hx hgx.2))⟩
    · intro t ht
      obtain ⟨x, hx, htx⟩ := hafter t ht
      exact ⟨x, le_of_lt (lt_of_lt_of_le (lt_trans hrs hss) hx), htx⟩

/-- Of two kinds of pieces that tile an interval, one kind with no two next to each other, the
other kind has at most one piece less. -/
theorem Tiles.length_le_of_separated {fs ls : List (α × α)} (h : Tiles (fs ++ ls) [(a, b)])
    (hpos : ∀ r ∈ fs, r.1 < r.2) (hs : fs.Pairwise fun r s => r.2 < s.1) :
    fs.length ≤ ls.length + 1 := by
  have hwhole : ∀ x, cover [(a, b)] x ≤ 1 := cover_le_one_of_apart (List.pairwise_singleton ..)
  have hbetween : ∀ r ∈ fs, ∀ s ∈ fs, r.2 < s.1 → ∃ g ∈ ls, Within g r.2 := by
    intro r hr s hsm hrs
    have hin : Within (a, b) r.2 := by
      obtain ⟨w, hw, h₁⟩ := h.within (List.mem_append_left _ hr) (x := r.1) ⟨le_rfl, hpos r hr⟩
      obtain ⟨w', hw', h₂⟩ := h.within (List.mem_append_left _ hsm) (x := s.1) ⟨le_rfl, hpos s hsm⟩
      obtain rfl := List.mem_singleton.mp hw
      obtain rfl := List.mem_singleton.mp hw'
      exact ⟨le_trans h₁.1 (le_of_lt (hpos r hr)), lt_trans hrs h₂.2⟩
    have hone : 0 < cover (fs ++ ls) r.2 := by
      rw [h]
      exact cover_pos.mpr ⟨_, List.mem_singleton_self _, hin⟩
    obtain ⟨g, hg, hgr⟩ := cover_pos.mp hone
    rcases List.mem_append.mp hg with hgf | hgl
    · exact absurd hgr (not_within_end hpos hs hr hgf)
    · exact ⟨g, hgl, hgr⟩
  cases fs with
  | nil => exact Nat.zero_le _
  | cons r fs =>
    obtain ⟨gs, hlen, hsub, hnd, -⟩ := exists_between hs
      (fun s hm => hpos s (List.mem_cons_of_mem _ hm))
      (fun s hm t ht => h.apart hwhole (List.mem_cons_of_mem _ hm) ht)
      (fun s hm t ht => hbetween s hm t (List.mem_cons_of_mem _ ht))
    rw [List.length_cons, ← hlen]
    exact Nat.succ_le_succ (hnd.subperm hsub).length_le

/-- An interval of good points that lies in no larger one. -/
structure MaximalPart (good : α → Prop) (r : α × α) : Prop where
  proper : r.1 < r.2
  inside : ∀ x, Within r x → good x
  maximal : ∀ s : α × α, s.1 ≤ r.1 → r.2 ≤ s.2 → (∀ x, Within s x → good x) → s = r

/-- A list of intervals of which no two meet, and that covers the good points and no others,
lists the maximal parts. -/
theorem mem_iff_maximalPart {good : α → Prop} (hpos : ∀ r ∈ l, r.1 < r.2)
    (hs : l.Pairwise fun r s => r.2 < s.1) (hgood : ∀ x, good x ↔ 0 < cover l x) (r : α × α) :
    r ∈ l ↔ MaximalPart good r := by
  constructor
  · intro hr
    refine ⟨hpos r hr, fun x hx => (hgood x).mpr (cover_pos.mpr ⟨r, hr, hx⟩), ?_⟩
    intro s h₁ h₂ hall
    have hsr : s.1 < s.2 := lt_of_le_of_lt h₁ (lt_of_lt_of_le (hpos r hr) h₂)
    obtain ⟨t, ht, ht₁, ht₂⟩ := exists_around hpos hs hsr fun x hx => (hgood x).mp (hall x hx)
    -- `t` lies around `s` and so around `r`; two intervals of the list share no point
    obtain rfl : t = r := eq_of_within hs ht hr (x := r.1)
      ⟨le_trans ht₁ h₁, lt_of_lt_of_le (hpos r hr) (le_trans h₂ ht₂)⟩ ⟨le_rfl, hpos r hr⟩
    exact Prod.ext (le_antisymm h₁ ht₁) (le_antisymm ht₂ h₂)
  · intro hr
    obtain ⟨t, ht, ht₁, ht₂⟩ := exists_around hpos hs hr.proper
      fun x hx => (hgood x).mp (hr.inside x hx)
    have hall : ∀ x, Within t x → good x := fun x hx => (hgood x).mpr (cover_pos.mpr ⟨t, ht, hx⟩)
    exact hr.maximal t ht₁ ht₂ hall ▸ ht

section Joined
variable {l' : List (α × α)} {q f : α × α}

/-- The interval `q` together with the intervals of the list that meet it at its ends. -/
def Joined (l : List (α × α)) (q r : α × α) : Prop :=
  (r.1 = q.1 ∨ (r.1, q.1) ∈ l) ∧ (r.2 = q.2 ∨ (q.2, r.2) ∈ l)

theorem Joined.around (hj : Joined l q r) (hpos : ∀ r ∈ l, r.1 < r.2) : r.1 ≤ q.1 ∧ q.2 ≤ r.2 :=
  ⟨hj.1.elim le_of_eq fun hm => le_of_lt (hpos _ hm),
    hj.2.elim ge_of_eq fun hm => le_of_lt (hpos _ hm)⟩

theorem Joined.covered (hj : Joined l q r) (hx : Within r x) : 0 < cover (q :: l) x := by
  rw [cover_pos]
  rcases lt_or_ge x q.1 with hlo | hlo
  · have hm := hj.1.resolve_left fun he => absurd hx.1 (not_le_of_gt (he ▸ hlo))
    exact ⟨_, List.mem_cons_of_mem _ hm, hx.1, hlo⟩
  rcases lt_or_ge x q.2 with hhi | hhi
  · exact ⟨q, List.mem_cons_self .., hlo, hhi⟩
  · have hm := hj.2.resolve_left fun he => absurd hx.2 (not_lt_of_ge (he ▸ hhi))
    exact ⟨_, List.mem_cons_of_mem _ hm, hhi, hx.2⟩

theorem Tiles.exists_joined (h : Tiles l' (q :: l)) (hpos : ∀ r ∈ l, r.1 < r.2)
    (hs : l.Pairwise fun r s => r.2 < s.1) (hs' : l'.Pairwise fun r s => r.2 < s.1)
    (hq : q.1 < q.2) (hf : f ∈ l') (h₁ : f.1 ≤ q.1) (h₂ : q.2 ≤ f.2) :
    ∃ r, Joined l q r ∧ r.1 ≤ f.1 ∧ f.2 ≤ r.2 := by
  have hone : (q :: l).Pairwise Apart := apart_of_cover_le_one fun x => by
    rw [← h x]
    exact cover_le_one_of_apart (hs'.imp fun {r s} hrs x hr hsx =>
      absurd (lt_trans hr.2 (lt_of_lt_of_le hrs hsx.1)) (lt_irrefl _)) x
  have hapart := (List.pairwise_cons.mp hone).1
  -- a point of `f` outside `q` was covered before
  have hold : ∀ x, Within f x → ¬ Within q x → 0 < cover l x := by
    intro x hx hxq
    have hnew : 0 < cover l' x := cover_pos.mpr ⟨f, hf, hx⟩
    rwa [h x, cover_cons, if_neg hxq] at hnew
  have hlo : ∃ a, (a = q.1 ∨ (a, q.1) ∈ l) ∧ a ≤ f.1 := by
    rcases eq_or_lt_of_le h₁ with he | hlt
    · exact ⟨q.1, .inl rfl, ge_of_eq he⟩
    obtain ⟨r, hr, hr₁, hr₂⟩ := exists_around hpos hs hlt fun x hx =>
      hold x ⟨hx.1, lt_trans hx.2 (lt_of_lt_of_le hq h₂)⟩ fun hxq => not_le_of_gt hx.2 hxq.1
    have he : r.2 = q.1 := le_antisymm (le_of_not_gt fun hgt =>
      hapart r hr q.1 ⟨le_rfl, hq⟩ ⟨le_of_lt (lt_of_le_of_lt hr₁ hlt), hgt⟩) hr₂
    exact ⟨r.1, .inr (he ▸ hr), hr₁⟩
  have hhi : ∃ b, (b = q.2 ∨ (q.2, b) ∈ l) ∧ f.2 ≤ b := by
    rcases eq_or_lt_of_le h₂ with he | hlt
    · exact ⟨q.2, .inl rfl, ge_of_eq he⟩
    obtain ⟨r, hr, hr₁, hr₂⟩ := exists_around hpos hs hlt fun x hx =>
      hold x ⟨le_trans h₁ (le_trans (le_of_lt hq) hx.1), hx.2⟩ fun hxq => not_le_of_gt hxq.2 hx.1
    have he : r.1 = q.2 := le_antisymm hr₁ (le_of_not_gt fun hgt =>
      hapart r hr (max q.1 r.1) ⟨le_max_left .., max_lt hq hgt⟩
        ⟨le_max_right .., max_lt (lt_of_lt_of_le (lt_trans hq hlt) hr₂) (hpos r hr)⟩)
    exact ⟨r.2, .inr (he ▸ hr), hr₂⟩
  obtain ⟨a, ha, haf⟩ := hlo
  obtain ⟨b, hb, hbf⟩ := hhi
  exact ⟨(a, b), ⟨ha, hb⟩, haf, hbf⟩

/-- Adding `q` to intervals of which no two meet, and joining those that meet then: an interval of
the new list lies in one of the old or in `q` joined with its neighbours. -/
theorem Tiles.exists_old (h : Tiles l' (q :: l)) (hpos : ∀ r ∈ l, r.1 < r.2)
    (hs : l.Pairwise fun r s => r.2 < s.1) (hpos' : ∀ r ∈ l', r.1 < r.2)
    (hs' : l'.Pairwise fun r s => r.2 < s.1) (hq : q.1 < q.2) (hf : f ∈ l') :
    ∃ r, (r ∈ l ∨ Joined l q r) ∧ r.1 ≤ f.1 ∧ f.2 ≤ r.2 := by
  by_cases hmeet : ∃ x, Within f x ∧ Within q x
  · obtain ⟨x, hxf, hxq⟩ := hmeet
    obtain ⟨g, hg, h₁, h₂⟩ := exists_around hpos' hs' hq fun x hx => by
      rw [h x]
      exact cover_pos.mpr ⟨q, List.mem_cons_self .., hx⟩
    obtain rfl : g = f := eq_of_within hs' hg hf
      ⟨le_trans h₁ hxq.1, lt_of_lt_of_le hxq.2 h₂⟩ hxf
    obtain ⟨r, hj, hr⟩ := h.exists_joined hpos hs hs' hq hg h₁ h₂
    exact ⟨r, .inr hj, hr⟩
  · obtain ⟨r, hr, hrf⟩ := exists_around hpos hs (hpos' f hf) fun x hx => by
      have hnew : 0 < cover l' x := cover_pos.mpr ⟨f, hf, hx⟩
      rwa [h x, cover_cons, if_neg fun hxq => hmeet ⟨x, hx, hxq⟩] at hnew
    exact ⟨r, .inl hr, hrf⟩

theorem Tiles.exists_new (h : Tiles l' (q :: l)) (hpos : ∀ r ∈ l, r.1 < r.2)
    (hpos' : ∀ r ∈ l', r.1 < r.2) (hs' : l'.Pairwise fun r s => r.2 < s.1) (hq : q.1 < q.2)
    (hr : r ∈ l ∨ Joined l q r) : ∃ f ∈ l', f.1 ≤ r.1 ∧ r.2 ≤ f.2 := by
  rcases hr with hr | hj
  · refine exists_around hpos' hs' (hpos r hr) fun x hx => ?_
    rw [h x]
    exact cover_pos.mpr ⟨r, List.mem_cons_of_mem _ hr, hx⟩
  · obtain ⟨h₁, h₂⟩ := hj.around hpos
    refine exists_around hpos' hs' (lt_of_le_of_lt h₁ (lt_of_lt_of_le hq h₂)) fun x hx => ?_
    rw [h x]
    exact hj.covered hx

end Joined

end VibeOS.Lib
