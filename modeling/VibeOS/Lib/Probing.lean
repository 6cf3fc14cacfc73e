import Mathlib.Logic.Function.Basic

/-!
A cyclic table of `n` cells searched by linear probing: an entry is looked for from its home on, up
to the first empty cell. Cut at the right place, the table is a plain row of cells in which every
entry lies at or after its home with no empty cell in between. Then a search finds every entry, an
entry put into the first empty cell after its home keeps such a cut, and so does removal by backward
shift, also in a full table, where the shift runs all the way round. Where cells are never given
back, every key may have an order of its own: a cell it passed stays passed, so whoever looks for a
key, and whatever others claim in between, finds one cell.
-/
namespace VibeOS.Lib.Probing

variable {κ ι : Type} {n r : Nat}

/-- The cell at coordinate `t` of the table cut at `r`. -/
def idx (n r t : Nat) : Nat := (r + t) % n

theorem idx_lt (hn : 0 < n) (t : Nat) : idx n r t < n :=
  Nat.mod_lt _ hn

theorem idx_succ (t : Nat) : (idx n r t + 1) % n = idx n r (t + 1) := by
  rw [idx, idx, Nat.mod_add_mod, Nat.add_assoc]

theorem idx_add_self (t : Nat) : idx n r (t + n) = idx n r t := by
  rw [idx, idx, ← Nat.add_assoc, Nat.add_mod_right]

theorem idx_sub {a b : Nat} (hab : a ≤ b) (hb : b - a < n) :
    (idx n r b + n - idx n r a) % n = b - a := by
  have hn : 0 < n := by omega
  have hA := idx_lt (r := r) hn a
  have hB : idx n r b = (idx n r a + (b - a)) % n := by
    rw [idx, idx, Nat.mod_add_mod]
    congr 1
    omega
  by_cases hlt : idx n r a + (b - a) < n
  · rw [hB, Nat.mod_eq_of_lt hlt, show idx n r a + (b - a) + n - idx n r a = b - a + n by omega,
      Nat.add_mod_right, Nat.mod_eq_of_lt hb]
  · have hsmall : idx n r a + (b - a) - n < n := by omega
    rw [hB, Nat.mod_eq_sub_mod (Nat.le_of_not_lt hlt), Nat.mod_eq_of_lt hsmall,
      show idx n r a + (b - a) - n + n - idx n r a = b - a by omega, Nat.mod_eq_of_lt hb]

theorem idx_inj {a b : Nat} (ha : a < n) (hb : b < n) (h : idx n r a = idx n r b) : a = b := by
  rcases Nat.le_total a b with hab | hab
  · have hsub := idx_sub (n := n) (r := r) hab (by omega)
    rw [h, Nat.add_sub_cancel_left, Nat.mod_self] at hsub
    omega
  · have hsub := idx_sub (n := n) (r := r) hab (by omega)
    rw [h, Nat.add_sub_cancel_left, Nat.mod_self] at hsub
    omega

theorem exists_idx (r : Nat) {i : Nat} (hi : i < n) : ∃ t < n, idx n r t = i := by
  have hr := Nat.mod_lt r (show 0 < n by omega)
  by_cases hle : r % n ≤ i
  · refine ⟨i - r % n, by omega, ?_⟩
    rw [idx, ← Nat.mod_add_mod, Nat.add_sub_cancel' hle, Nat.mod_eq_of_lt hi]
  · refine ⟨i + n - r % n, by omega, ?_⟩
    rw [idx, ← Nat.mod_add_mod, Nat.add_sub_cancel' (by omega), Nat.add_mod_right,
      Nat.mod_eq_of_lt hi]

/-- The search for an entry that `p` accepts, `fuel` cells far. -/
def probe (n : Nat) (c : Nat → Option κ) (p : κ → Bool) : Nat → Nat → Option Nat
  | 0, _ => none
  | fuel + 1, i =>
    match c i with
    | none => none
    | some k => if p k then some i else probe n c p fuel ((i + 1) % n)

/-- The search for an empty cell. -/
def vacancy (n : Nat) (c : Nat → Option κ) : Nat → Nat → Option Nat
  | 0, _ => none
  | fuel + 1, i =>
    match c i with
    | none => some i
    | some _ => vacancy n c fuel ((i + 1) % n)

/-- Backward shift: each entry after the hole is pulled into it unless its home lies between. -/
def shift (n : Nat) (home : κ → Nat) : Nat → (Nat → Option κ) → Nat → Nat → (Nat → Option κ) × Nat
  | 0, c, hole, _ => (c, hole)
  | fuel + 1, c, hole, j =>
    match c ((j + 1) % n) with
    | none => (c, hole)
    | some k =>
      if ((j + 1) % n + n - hole) % n ≤ ((j + 1) % n + n - home k) % n then
        shift n home fuel (Function.update c hole (some k)) ((j + 1) % n) ((j + 1) % n)
      else shift n home fuel c hole ((j + 1) % n)

/-- The entry of cell `i` taken out. -/
def erase (n : Nat) (home : κ → Nat) (c : Nat → Option κ) (i : Nat) : Nat → Option κ :=
  Function.update (shift n home n c i i).1 (shift n home n c i i).2 none

/-- Cut at `r`, every entry lies at or after its home, with no empty cell in between. -/
def Linear (n : Nat) (home : κ → Nat) (c : Nat → Option κ) (r : Nat) : Prop :=
  ∀ t < n, ∀ k, c (idx n r t) = some k →
    ∃ a ≤ t, idx n r a = home k ∧ ∀ q, a ≤ q → q < t → c (idx n r q) ≠ none

/-- No two cells have entries with the same key. -/
def Distinct (n : Nat) (key : κ → ι) (c : Nat → Option κ) : Prop :=
  ∀ i < n, ∀ j < n, ∀ k k', c i = some k → c j = some k' → key k = key k' → i = j

variable {c : Nat → Option κ} {p : κ → Bool} {home : κ → Nat} {key : κ → ι} {k : κ}

theorem probe_found {fuel a t : Nat} (hat : a ≤ t) (hf : t < a + fuel) (ht : c (idx n r t) = some k)
    (hk : p k = true) (hbefore : ∀ q, a ≤ q → q < t → ∃ k', c (idx n r q) = some k' ∧
      p k' = false) :
    probe n c p fuel (idx n r a) = some (idx n r t) := by
  induction fuel generalizing a with
  | zero => omega
  | succ fuel ih =>
    rw [probe]
    by_cases h : a = t
    · subst h
      rw [ht]
      simp only
      rw [if_pos hk]
    · obtain ⟨k', hk', hp⟩ := hbefore a (Nat.le_refl a) (by omega)
      rw [hk']
      simp only
      rw [if_neg (by rw [hp]; exact Bool.false_ne_true), idx_succ]
      exact ih (by omega) (by omega) fun q hq => hbefore q (by omega)

theorem probe_none {fuel i : Nat} (hi : i < n) (h : ∀ j < n, ∀ k, c j = some k → p k = false) :
    probe n c p fuel i = none := by
  induction fuel generalizing i with
  | zero => rfl
  | succ fuel ih =>
    rw [probe]
    cases hc : c i with
    | none => rfl
    | some k =>
      simp only
      rw [if_neg (by rw [h i hi k hc]; exact Bool.false_ne_true)]
      exact ih (Nat.mod_lt _ (by omega))

theorem Linear.probe_eq (h : Linear n home c r) {i : Nat} (hi : i < n) (hc : c i = some k)
    (hk : p k = true) (honly : ∀ j < n, ∀ k', c j = some k' → p k' = true → j = i) :
    probe n c p n (home k) = some i := by
  obtain ⟨t, ht, rfl⟩ := exists_idx r hi
  obtain ⟨a, hat, ha, hfull⟩ := h t ht k hc
  rw [← ha]
  refine probe_found hat (by omega) hc hk fun q hq hqt => ?_
  obtain ⟨k', hk'⟩ := Option.ne_none_iff_exists'.mp (hfull q hq hqt)
  refine ⟨k', hk', ?_⟩
  by_contra hp
  have := honly _ (idx_lt (by omega) q) k' hk' (by simpa using hp)
  have := idx_inj (by omega) ht this
  omega

theorem vacancy_some {fuel a t : Nat} (hat : a ≤ t) (hf : t < a + fuel)
    (ht : c (idx n r t) = none) :
    ∃ e, a ≤ e ∧ e < a + fuel ∧ vacancy n c fuel (idx n r a) = some (idx n r e) ∧
      c (idx n r e) = none ∧
      ∀ q, a ≤ q → q < e → c (idx n r q) ≠ none := by
  induction fuel generalizing a with
  | zero => omega
  | succ fuel ih =>
    rw [vacancy]
    cases hc : c (idx n r a) with
    | none => exact ⟨a, Nat.le_refl a, by omega, rfl, hc, fun q hq hqa => by omega⟩
    | some k =>
      simp only
      rw [idx_succ]
      have hne : a ≠ t := by
        rintro rfl
        rw [ht] at hc
        cases hc
      obtain ⟨e, hae, hef, hv, he, hfull⟩ := ih (a := a + 1) (by omega) (by omega)
      refine ⟨e, by omega, by omega, hv, he, fun q hq hqe => ?_⟩
      by_cases hqa : q = a
      · rw [hqa, hc]
        exact Option.some_ne_none k
      · exact hfull q (by omega) hqe

theorem idx_cut (e u : Nat) : idx n (idx n r e + 1) u = idx n r (e + 1 + u) := by
  rw [idx, idx, idx, Nat.add_assoc, Nat.mod_add_mod]
  congr 1
  omega

theorem Linear.cut (h : Linear n home c r) {e : Nat} (he : e < n) (hc : c (idx n r e) = none) :
    Linear n home c (idx n r e + 1) := by
  intro t ht k hk
  rw [idx_cut] at hk
  have hne : e + 1 + t ≠ e + n := by
    intro heq
    rw [heq, idx_add_self, hc] at hk
    cases hk
  by_cases hlt : e + 1 + t < n
  · obtain ⟨a, hat, ha, hfull⟩ := h (e + 1 + t) hlt k hk
    have hea : e < a := by
      by_contra hle
      exact hfull e (by omega) (by omega) hc
    refine ⟨a - (e + 1), by omega, ?_, fun q hq hqt => ?_⟩
    · rw [idx_cut, Nat.add_sub_cancel' hea, ha]
    · rw [idx_cut]
      exact hfull (e + 1 + q) (by omega) (by omega)
  · have hwrap : e + 1 + t = (e + 1 + t - n) + n := by omega
    rw [hwrap, idx_add_self] at hk
    obtain ⟨a, hat, ha, hfull⟩ := h (e + 1 + t - n) (by omega) k hk
    refine ⟨a + n - (e + 1), by omega, ?_, fun q hq hqt => ?_⟩
    · rw [idx_cut, show e + 1 + (a + n - (e + 1)) = a + n by omega, idx_add_self, ha]
    · rw [idx_cut, show e + 1 + q = (e + 1 + q - n) + n by omega, idx_add_self]
      exact hfull (e + 1 + q - n) (by omega) (by omega)

theorem Linear.insert (h : Linear n home c r) {a e : Nat} (ha : idx n r a = home k) (han : a < n)
    (hae : a ≤ e) (hen : e < a + n) (hc : c (idx n r e) = none)
    (hfull : ∀ q, a ≤ q → q < e → c (idx n r q) ≠ none) :
    Linear n home (Function.update c (idx n r e) (some k)) (idx n r e + 1) := by
  have hn : 0 < n := by omega
  have hcut : Linear n home c (idx n r e + 1) := by
    by_cases hlt : e < n
    · exact h.cut hlt hc
    · have hwrap : idx n r e = idx n r (e - n) := by
        rw [← idx_add_self (e - n), Nat.sub_add_cancel (Nat.le_of_not_lt hlt)]
      rw [hwrap] at hc ⊢
      exact h.cut (by omega) hc
  have hkept : ∀ i, c i ≠ none → Function.update c (idx n r e) (some k) i ≠ none := by
    intro i hi
    by_cases hie : i = idx n r e
    · rw [hie, Function.update_self]
      exact Option.some_ne_none k
    · rwa [Function.update_of_ne hie]
  intro t ht k' hk'
  by_cases hte : idx n (idx n r e + 1) t = idx n r e
  · rw [hte, Function.update_self] at hk'
    cases hk'
    -- the new entry is in the last cell of the row
    have hlast : t = n - 1 := by
      refine idx_inj ht (by omega) (hte.trans ?_)
      rw [idx_cut, show e + 1 + (n - 1) = e + n by omega, idx_add_self]
    refine ⟨a + n - (e + 1), by omega, ?_, fun q hq hqt => hkept _ ?_⟩
    · rw [idx_cut, show e + 1 + (a + n - (e + 1)) = a + n by omega, idx_add_self, ha]
    · rw [idx_cut, show e + 1 + q = (e + 1 + q - n) + n by omega, idx_add_self]
      exact hfull (e + 1 + q - n) (by omega) (by omega)
  · rw [Function.update_of_ne hte] at hk'
    obtain ⟨b, hbt, hb, hbfull⟩ := hcut t ht k' hk'
    exact ⟨b, hbt, hb, fun q hq hqt => hkept _ (hbfull q hq hqt)⟩

theorem Linear.replace (h : Linear n home c r) {i : Nat} {k' : κ} (hc : c i = some k)
    (hhome : home k' = home k) : Linear n home (Function.update c i (some k')) r := by
  have hkept : ∀ j, c j ≠ none → Function.update c i (some k') j ≠ none := by
    intro j hj
    by_cases hji : j = i
    · rw [hji, Function.update_self]
      exact Option.some_ne_none k'
    · rwa [Function.update_of_ne hji]
  intro t ht x hx
  by_cases hti : idx n r t = i
  · rw [hti, Function.update_self] at hx
    cases hx
    obtain ⟨a, hat, ha, hfull⟩ := h t ht k (hti ▸ hc)
    exact ⟨a, hat, ha.trans hhome.symm, fun q hq hqt => hkept _ (hfull q hq hqt)⟩
  · rw [Function.update_of_ne hti] at hx
    obtain ⟨a, hat, ha, hfull⟩ := h t ht x hx
    exact ⟨a, hat, ha, fun q hq hqt => hkept _ (hfull q hq hqt)⟩

theorem Distinct.update (h : Distinct n key c) {i : Nat}
    (hnew : ∀ j < n, j ≠ i → ∀ k', c j = some k' → key k' ≠ key k) :
    Distinct n key (Function.update c i (some k)) := by
  intro j hj j' hj' x x' hx hx' hkey
  by_cases hji : j = i
  · by_cases hji' : j' = i
    · rw [hji, hji']
    · rw [hji, Function.update_self] at hx
      rw [Function.update_of_ne hji'] at hx'
      cases hx
      exact absurd hkey.symm (hnew j' hj' hji' x' hx')
  · rw [Function.update_of_ne hji] at hx
    by_cases hji' : j' = i
    · rw [hji', Function.update_self] at hx'
      cases hx'
      exact absurd hkey (hnew j hj hji x hx)
    · rw [Function.update_of_ne hji'] at hx'
      exact h j hj j' hj' x x' hx hx' hkey

/-- A shift in progress: the hole is at coordinate `hole`, with a stale entry, and the cells up to
coordinate `seen` need it no more. -/
structure Shifting (n : Nat) (home : κ → Nat) (key : κ → ι) (r : Nat) (c₀ : Nat → Option κ)
    (t₀ : Nat) (c : Nat → Option κ) (hole seen : Nat) : Prop where
  from_start : t₀ ≤ hole
  hole_lt : hole < n
  le_seen : hole ≤ seen
  stale : c (idx n r hole) ≠ none
  reach : ∀ t < n, t ≠ hole → ∀ k, c (idx n r t) = some k →
    ∃ a ≤ t, idx n r a = home k ∧ (∀ q, a ≤ q → q < t → c (idx n r q) ≠ none) ∧
      (t ≤ seen → ¬ (a ≤ hole ∧ hole < t))
  content : ∀ k, (∃ t < n, t ≠ hole ∧ c (idx n r t) = some k) ↔
    ∃ t < n, t ≠ t₀ ∧ c₀ (idx n r t) = some k
  distinct : ∀ t < n, ∀ t' < n, t ≠ hole → t' ≠ hole → ∀ k k', c (idx n r t) = some k →
    c (idx n r t') = some k' → key k = key k' → t = t'

variable {c₀ : Nat → Option κ} {t₀ hole seen : Nat}

theorem Shifting.start (h : Linear n home c r) (hd : Distinct n key c) (ht : t₀ < n)
    (hc : c (idx n r t₀) ≠ none) : Shifting n home key r c t₀ c t₀ t₀ := by
  refine ⟨Nat.le_refl _, ht, Nat.le_refl _, hc, fun t htn hne k hk => ?_, fun k => Iff.rfl,
    fun t ht t' ht' _ _ k k' hk hk' hkey => ?_⟩
  · obtain ⟨a, hat, ha, hfull⟩ := h t htn k hk
    exact ⟨a, hat, ha, hfull, fun hle => by omega⟩
  · have hn : 0 < n := by omega
    exact idx_inj ht ht' (hd _ (idx_lt hn t) _ (idx_lt hn t') k k' hk hk' hkey)

section
variable (h : Shifting n home key r c₀ t₀ c hole seen)
include h

theorem Shifting.move (hlt : seen + 1 < n) (hk : c (idx n r (seen + 1)) = some k) {a : Nat}
    (ha : idx n r a = home k) (hhole : a ≤ hole)
    (hfull : ∀ q, a ≤ q → q < seen + 1 → c (idx n r q) ≠ none) :
    Shifting n home key r c₀ t₀ (Function.update c (idx n r hole) (some k)) (seen + 1)
      (seen + 1) := by
  have hle := h.le_seen
  have hholelt := h.hole_lt
  have hother : ∀ t < n, t ≠ hole →
      Function.update c (idx n r hole) (some k) (idx n r t) = c (idx n r t) :=
    fun t ht hne => Function.update_of_ne (fun he => hne (idx_inj ht hholelt he)) ..
  have hkept : ∀ i, c i ≠ none → Function.update c (idx n r hole) (some k) i ≠ none := by
    intro i hi
    by_cases hie : i = idx n r hole
    · rw [hie, Function.update_self]
      exact Option.some_ne_none k
    · rwa [Function.update_of_ne hie]
  refine ⟨by have := h.from_start; omega, hlt, Nat.le_refl _, ?_, fun t ht hne k' hk' => ?_,
    fun k' => ?_, fun t ht t' ht' hne hne' k₁ k₂ hk₁ hk₂ hkey => ?_⟩
  · exact hkept _ (by rw [hk]; exact Option.some_ne_none k)
  · by_cases hth : t = hole
    · subst hth
      rw [Function.update_self] at hk'
      cases hk'
      refine ⟨a, hhole, ha, fun q hq hqt => hkept _ (hfull q hq (by omega)), fun _ => by omega⟩
    · rw [hother t ht hth] at hk'
      obtain ⟨b, hbt, hb, hbfull, -⟩ := h.reach t ht hth k' hk'
      exact ⟨b, hbt, hb, fun q hq hqt => hkept _ (hbfull q hq hqt), fun _ => by omega⟩
  · rw [← h.content k']
    constructor
    · rintro ⟨t, ht, hne, hk'⟩
      by_cases hth : t = hole
      · subst hth
        rw [Function.update_self] at hk'
        cases hk'
        exact ⟨seen + 1, hlt, by omega, hk⟩
      · rw [hother t ht hth] at hk'
        exact ⟨t, ht, hth, hk'⟩
    · rintro ⟨t, ht, hth, hk'⟩
      by_cases hts : t = seen + 1
      · subst hts
        rw [hk] at hk'
        cases hk'
        exact ⟨hole, hholelt, by omega, Function.update_self ..⟩
      · exact ⟨t, ht, hts, (hother t ht hth).trans hk'⟩
  · -- the hole's new entry is the one of the cell after
    have hback : ∀ t < n, t ≠ seen + 1 →
      ∀ k', Function.update c (idx n r hole) (some k) (idx n r t) = some k' →
        ∃ u < n, u ≠ hole ∧ c (idx n r u) = some k' ∧
        (t = hole ∧ u = seen + 1 ∨ t ≠ hole ∧ u = t) := by
      intro t ht hne k' hk'
      by_cases hth : t = hole
      · subst hth
        rw [Function.update_self] at hk'
        cases hk'
        exact ⟨seen + 1, hlt, by omega, hk, .inl ⟨rfl, rfl⟩⟩
      · rw [hother t ht hth] at hk'
        exact ⟨t, ht, hth, hk', .inr ⟨hth, rfl⟩⟩
    obtain ⟨u, hu, hune, huk, hcase⟩ := hback t ht hne k₁ hk₁
    obtain ⟨u', hu', hune', huk', hcase'⟩ := hback t' ht' hne' k₂ hk₂
    have := h.distinct u hu u' hu' hune hune' k₁ k₂ huk huk' hkey
    omega

theorem Shifting.stay (hk : c (idx n r (seen + 1)) = some k) {a : Nat} (ha : idx n r a = home k)
    (hle : a ≤ seen + 1) (hhole : hole < a)
    (hfull : ∀ q, a ≤ q → q < seen + 1 → c (idx n r q) ≠ none) :
    Shifting n home key r c₀ t₀ c hole (seen + 1) := by
  refine ⟨h.from_start, h.hole_lt, by have := h.le_seen; omega, h.stale, fun t ht hne k' hk' => ?_,
    h.content, h.distinct⟩
  by_cases hts : t = seen + 1
  · subst hts
    rw [hk] at hk'
    cases hk'
    exact ⟨a, hle, ha, hfull, fun _ => by omega⟩
  · obtain ⟨b, hbt, hb, hbfull, hseen⟩ := h.reach t ht hne k' hk'
    exact ⟨b, hbt, hb, hbfull, fun hle => hseen (by omega)⟩

theorem Shifting.stop (hnone : c (idx n r (seen + 1)) = none) :
    Shifting n home key r c₀ t₀ c hole (seen + n) := by
  refine ⟨h.from_start, h.hole_lt, by have := h.le_seen; omega, h.stale, fun t ht hne k' hk' => ?_,
    h.content, h.distinct⟩
  obtain ⟨b, hbt, hb, hbfull, hseen⟩ := h.reach t ht hne k' hk'
  refine ⟨b, hbt, hb, hbfull, fun _ hbad => ?_⟩
  have hle := h.le_seen
  by_cases hts : t ≤ seen
  · exact hseen hts hbad
  · have hnext : t ≠ seen + 1 := by
      rintro rfl
      rw [hnone] at hk'
      cases hk'
    exact hbfull (seen + 1) (by omega) (by omega) hnone

theorem Shifting.later (hall : n ≤ seen + 1) : Shifting n home key r c₀ t₀ c hole (seen + 1) := by
  refine ⟨h.from_start, h.hole_lt, by have := h.le_seen; omega, h.stale, fun t ht hne k' hk' => ?_,
    h.content, h.distinct⟩
  obtain ⟨b, hbt, hb, hbfull, hseen⟩ := h.reach t ht hne k' hk'
  exact ⟨b, hbt, hb, hbfull, fun _ => hseen (by omega)⟩

/-- The loop of the shift ends with every entry in reach of its home without the hole. In a full
table it comes round to where it began, and past the end of the row it moves nothing. -/
theorem Shifting.run {fuel : Nat} (hfuel : seen + fuel = t₀ + n) :
    ∃ c' hole' seen', shift n home fuel c (idx n r hole) (idx n r seen) = (c', idx n r hole') ∧
      Shifting n home key r c₀ t₀ c' hole' seen' ∧ n ≤ seen' + 1 := by
  induction fuel generalizing c hole seen with
  | zero => exact ⟨c, hole, seen, rfl, h, by omega⟩
  | succ fuel ih =>
    have hstart := h.from_start
    have hholelt := h.hole_lt
    have hle := h.le_seen
    rw [shift, idx_succ]
    by_cases hlt : seen + 1 < n
    · cases hc : c (idx n r (seen + 1)) with
      | none => exact ⟨c, hole, seen + n, rfl, h.stop hc, by omega⟩
      | some k =>
        obtain ⟨a, hat, ha, hfull, -⟩ := h.reach (seen + 1) hlt (by omega) k hc
        simp only
        rw [← ha, idx_sub (by omega) (by omega), idx_sub hat (by omega)]
        split
        · exact ih (h.move hlt hc ha (by omega) hfull) (by omega)
        · exact ih (h.stay hc ha hat (by omega) hfull) (by omega)
    · have hwrap : idx n r (seen + 1) = idx n r (seen + 1 - n) := by
        rw [← idx_add_self (seen + 1 - n), Nat.sub_add_cancel (Nat.le_of_not_lt hlt)]
      cases hc : c (idx n r (seen + 1)) with
      | none => exact ⟨c, hole, seen, rfl, h, by omega⟩
      | some k =>
        simp only
        by_cases hself : seen + 1 - n = hole
        · -- back at a hole that never moved: its stale entry is put where it is
          have hsame : idx n r (seen + 1) = idx n r hole := hwrap.trans (by rw [hself])
          have hstale : Function.update c (idx n r hole) (some k) = c := by
            rw [hsame] at hc
            rw [← hc]
            exact Function.update_eq_self ..
          have hzero : (idx n r (seen + 1) + n - idx n r hole) % n = 0 := by
            rw [hsame, Nat.add_sub_cancel_left, Nat.mod_self]
          rw [hzero, if_pos (Nat.zero_le _), hstale]
          have hnext := ih (h.later (by omega)) (by omega)
          rw [hsame] at hnext ⊢
          exact hnext
        · have hk := hc
          rw [hwrap] at hk
          obtain ⟨a, hat, ha, -, -⟩ := h.reach (seen + 1 - n) (by omega) hself k hk
          have hhome : (idx n r (seen + 1) + n - home k) % n = seen + 1 - n - a := by
            rw [hwrap, ← ha, idx_sub hat (by omega)]
          rw [hhome, idx_sub (by omega) (by omega), if_neg (by omega)]
          exact ih (h.later (by omega)) (by omega)

end

theorem Linear.erase (h : Linear n home c r) (hd : Distinct n key c) {i : Nat} (hi : i < n)
    (hc : c i = some k) :
    Linear n home (Probing.erase n home c i) r ∧ Distinct n key (Probing.erase n home c i) ∧
      ∀ k', (∃ j < n, Probing.erase n home c i j = some k') ↔ ∃ j < n, j ≠ i ∧ c j = some k' := by
  obtain ⟨t₀, ht₀, rfl⟩ := exists_idx r hi
  have hn : 0 < n := by omega
  have hstart := Shifting.start h hd ht₀ (by rw [hc]; exact Option.some_ne_none k)
  obtain ⟨c', hole, seen, hrun, hs, hall⟩ := hstart.run (Eq.refl (t₀ + n))
  have hholelt := hs.hole_lt
  have herase : Probing.erase n home c (idx n r t₀) = Function.update c' (idx n r hole) none := by
    unfold Probing.erase
    rw [hrun]
  have hcell : ∀ t < n, ∀ k, Function.update c' (idx n r hole) none (idx n r t) = some k ↔
      t ≠ hole ∧ c' (idx n r t) = some k := by
    intro t ht k
    by_cases hth : t = hole
    · subst hth
      simp
    · rw [Function.update_of_ne fun he => hth (idx_inj ht hholelt he)]
      exact (and_iff_right hth).symm
  rw [herase]
  refine ⟨fun t ht k hk => ?_, fun i hi j hj k k' hk hk' hkey => ?_, fun k' => ?_⟩
  · obtain ⟨hne, hk⟩ := (hcell t ht k).mp hk
    obtain ⟨a, hat, ha, hfull, hseen⟩ := hs.reach t ht hne k hk
    refine ⟨a, hat, ha, fun q hq hqt => ?_⟩
    obtain ⟨k', hk'⟩ := Option.ne_none_iff_exists'.mp (hfull q hq hqt)
    have hqh : q ≠ hole := by
      rintro rfl
      exact hseen (by omega) ⟨hq, hqt⟩
    rw [(hcell q (by omega) k').mpr ⟨hqh, hk'⟩]
    exact Option.some_ne_none k'
  · obtain ⟨t, ht, rfl⟩ := exists_idx r hi
    obtain ⟨t', ht', rfl⟩ := exists_idx r hj
    obtain ⟨hne, hk⟩ := (hcell t ht k).mp hk
    obtain ⟨hne', hk'⟩ := (hcell t' ht' k').mp hk'
    rw [hs.distinct t ht t' ht' hne hne' k k' hk hk' hkey]
  · constructor
    · rintro ⟨j, hj, hk⟩
      obtain ⟨t, ht, rfl⟩ := exists_idx r hj
      obtain ⟨u, hu, hne, huk⟩ := (hs.content k').mp ⟨t, ht, (hcell t ht k').mp hk⟩
      exact ⟨idx n r u, idx_lt hn u, fun he => hne (idx_inj hu ht₀ he), huk⟩
    · rintro ⟨j, hj, hne, hk⟩
      obtain ⟨t, ht, rfl⟩ := exists_idx r hj
      have hne' : t ≠ t₀ := fun he => hne (by rw [he])
      obtain ⟨u, hu, huh, huk⟩ := (hs.content k').mpr ⟨t, ht, hne', hk⟩
      exact ⟨idx n r u, idx_lt hn u, (hcell u hu k').mpr ⟨huh, huk⟩⟩

section Claim
variable {ι κ : Type} {e : κ} {p : κ → Nat → ι} {n i : Nat} {c : ι → κ} {k k' : κ} {a b : ι}

/-- The first `i` cells in the order of `k` belong to other keys; `e` marks an empty cell. -/
def Passed (e : κ) (p : κ → Nat → ι) (c : ι → κ) (k : κ) (i : Nat) : Prop :=
  ∀ j < i, c (p k j) ≠ e ∧ c (p k j) ≠ k

/-- Every key of the table passed the cells before its own. -/
def Claimed (e : κ) (p : κ → Nat → ι) (n : Nat) (c : ι → κ) : Prop :=
  ∀ a, c a ≠ e → ∃ i < n, p (c a) i = a ∧ Passed e p c (c a) i

theorem Passed.succ (h : Passed e p c k i) (he : c (p k i) ≠ e) (hk : c (p k i) ≠ k) :
    Passed e p c k (i + 1) := by
  intro j hj
  rcases Nat.lt_succ_iff_lt_or_eq.mp hj with hlt | rfl
  · exact h j hlt
  · exact ⟨he, hk⟩

theorem Claimed.unique (h : Claimed e p n c) (ha : c a ≠ e) (hab : c a = c b) : a = b := by
  obtain ⟨i, -, hi, hpi⟩ := h a ha
  obtain ⟨j, -, hj, hpj⟩ := h b (hab ▸ ha)
  rw [← hab] at hj hpj
  rcases Nat.lt_trichotomy i j with hlt | rfl | hlt
  · exact absurd (congrArg c hi) (hpj i hlt).2
  · exact hi.symm.trans hj
  · exact absurd ((congrArg c hj).trans hab.symm) (hpi j hlt).2

section Update
variable [DecidableEq ι]

theorem update_of_claimed (hb : c b = e) (ha : c a ≠ e) : Function.update c b k a = c a :=
  Function.update_of_ne (fun hab => ha ((congrArg c hab).trans hb)) k c

theorem Passed.claim (h : Passed e p c k i) (hb : c b = e) :
    Passed e p (Function.update c b k') k i := by
  intro j hj
  rw [update_of_claimed hb (h j hj).1]
  exact h j hj

theorem Claimed.claim (h : Claimed e p n c) (hp : Passed e p c k i) (hi : i < n)
    (hb : c (p k i) = e) : Claimed e p n (Function.update c (p k i) k) := by
  intro a ha
  by_cases hab : a = p k i
  · subst hab
    rw [Function.update_self]
    exact ⟨i, hi, rfl, hp.claim hb⟩
  · rw [Function.update_of_ne hab] at ha ⊢
    obtain ⟨j, hj, hja, hpj⟩ := h a ha
    exact ⟨j, hj, hja, hpj.claim hb⟩

end Update

end Claim

end VibeOS.Lib.Probing
