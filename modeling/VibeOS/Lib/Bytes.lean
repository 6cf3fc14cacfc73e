import Mathlib.Algebra.Order.Ring.Nat
import Mathlib.Data.List.Basic
import Mathlib.Data.List.OfFn
import Mathlib.Logic.Function.Basic

/-!
Fixed-size byte buffers and byte-addressed memory, stores of byte strings into them and
little-endian numbers. A store is read back, and leaves every byte outside it alone.
-/
namespace VibeOS.Lib

abbrev Buf (n : Nat) : Type :=
  Fin n → UInt8

namespace Buf
variable {n : Nat}

def zero : Buf n :=
  fun _ => 0

def get (b : Buf n) (o : Nat) : UInt8 :=
  if h : o < n then b ⟨o, h⟩ else 0

/-- Store a byte string from offset `o` on. -/
def put (b : Buf n) (o : Nat) (l : List UInt8) : Buf n :=
  fun i => if o ≤ i.val then (l[i.val - o]?).getD (b i) else b i

def slice (b : Buf n) (o len : Nat) : List UInt8 :=
  (List.range len).map fun i => b.get (o + i)

end Buf

theorem getElem?_flatMap_const {α β : Type} {f : α → List β} {k : Nat} (hf : ∀ x, (f x).length = k)
    (l : List α) (i : Nat) : (l.flatMap f)[i]? = (l[i / k]?).bind fun x => (f x)[i % k]? := by
  induction l generalizing i with
  | nil => simp
  | cons x l ih =>
    rw [List.flatMap_cons]
    by_cases hi : i < k
    · rw [List.getElem?_append_left (by rwa [hf]), Nat.div_eq_of_lt hi, Nat.mod_eq_of_lt hi]
      rfl
    · rcases Nat.eq_zero_or_pos k with rfl | hk
      · have hnil : ∀ x, f x = [] := fun x => List.eq_nil_of_length_eq_zero (hf x)
        simp [hnil]
      · have hdiv : i / k = (i - k) / k + 1 := by
          rw [← Nat.add_div_right _ hk, Nat.sub_add_cancel (Nat.le_of_not_lt hi)]
        have hmod : i % k = (i - k) % k := Nat.mod_eq_sub_mod (Nat.le_of_not_lt hi)
        rw [List.getElem?_append_right (by rw [hf]; omega), hf, ih, hdiv, hmod,
          List.getElem?_cons_succ]

/-- The `w` low bytes of a number, lowest first. -/
def leBytes (w v : Nat) : List UInt8 :=
  match w with
  | 0 => []
  | w + 1 => UInt8.ofNat v :: leBytes w (v / 256)

def ofLE : List UInt8 → Nat
  | [] => 0
  | b :: l => b.toNat + 256 * ofLE l

@[simp] theorem length_leBytes (w v : Nat) : (leBytes w v).length = w := by
  induction w generalizing v with
  | zero => rfl
  | succ w ih => simp [leBytes, ih]

theorem leBytes_zero (w : Nat) : leBytes w 0 = List.replicate w 0 := by
  induction w with
  | zero => rfl
  | succ w ih => rw [leBytes, Nat.zero_div, ih, List.replicate_succ]; rfl

theorem ofLE_leBytes (w v : Nat) : ofLE (leBytes w v) = v % 256 ^ w := by
  induction w generalizing v with
  | zero => simp [leBytes, ofLE, Nat.mod_one]
  | succ w ih =>
    rw [leBytes, ofLE, ih, Nat.pow_succ', Nat.mod_mul]
    simp

theorem ofLE_lt (l : List UInt8) : ofLE l < 256 ^ l.length := by
  induction l with
  | nil => simp [ofLE]
  | cons b l ih =>
    have hb : b.toNat < 256 := b.toNat_lt
    rw [ofLE, List.length_cons, Nat.pow_succ']
    omega

namespace Buf
variable {n : Nat}

def putLE (w : Nat) (b : Buf n) (o v : Nat) : Buf n :=
  b.put o (leBytes w v)

def getLE (w : Nat) (b : Buf n) (o : Nat) : Nat :=
  ofLE (b.slice o w)

@[simp] theorem length_slice (b : Buf n) (o len : Nat) : (b.slice o len).length = len := by
  simp [slice]

variable {b : Buf n} {l : List UInt8}

theorem get_put_ne {o i : Nat} (h : i < o ∨ o + l.length ≤ i) : (b.put o l).get i = b.get i := by
  unfold get put
  split
  · dsimp only
    split
    · rw [List.getElem?_eq_none (by omega)]
      rfl
    · rfl
  · rfl

theorem get_put {o i : Nat} (h : o ≤ i) (hi : i - o < l.length) (hn : i < n) :
    (b.put o l).get i = l[i - o] := by
  simp [get, put, hn, h, List.getElem?_eq_getElem hi]

theorem slice_put_ne {o o' len : Nat} (h : o' + len ≤ o ∨ o + l.length ≤ o') :
    (b.put o l).slice o' len = b.slice o' len := by
  unfold slice
  refine List.map_congr_left fun i hi => get_put_ne ?_
  have := List.mem_range.mp hi
  omega

theorem slice_put {o : Nat} (h : o + l.length ≤ n) : (b.put o l).slice o l.length = l := by
  apply List.ext_getElem
  · simp
  · intro i h₁ h₂
    simp only [slice, List.getElem_map, List.getElem_range]
    rw [get_put (by omega) (by omega) (by omega)]
    simp

theorem slice_congr {k : Nat} {b' : Buf k} {o len : Nat}
    (h : ∀ i < len, b.get (o + i) = b'.get (o + i)) : b.slice o len = b'.slice o len :=
  List.map_congr_left fun i hi => h i (List.mem_range.mp hi)

theorem slice_zero_eq_ofFn (b : Buf n) : b.slice 0 n = List.ofFn b := by
  apply List.ext_getElem
  · simp
  · intro i h₁ h₂
    have hi : i < n := by simpa using h₁
    simp [slice, get, hi]

theorem getLE_lt (w : Nat) (b : Buf n) (o : Nat) : b.getLE w o < 256 ^ w := by
  have := ofLE_lt (b.slice o w)
  rwa [length_slice] at this

theorem getLE_putLE {w o v : Nat} (h : o + w ≤ n) (hv : v < 256 ^ w) :
    (b.putLE w o v).getLE w o = v := by
  have hs := slice_put (b := b) (o := o) (l := leBytes w v) (by simpa using h)
  rw [length_leBytes] at hs
  rw [getLE, putLE, hs, ofLE_leBytes, Nat.mod_eq_of_lt hv]

theorem getLE_put_ne {w o o' : Nat} (h : o' + w ≤ o ∨ o + l.length ≤ o') :
    (b.put o l).getLE w o' = b.getLE w o' := by
  rw [getLE, slice_put_ne h, getLE]

theorem getLE_putLE_ne {w w' o o' v : Nat} (h : o' + w ≤ o ∨ o + w' ≤ o') :
    (b.putLE w' o v).getLE w o' = b.getLE w o' :=
  getLE_put_ne (by rwa [length_leBytes])

@[simp] theorem get_zero (o : Nat) : (zero : Buf n).get o = 0 := by
  simp [get, zero]

@[simp] theorem getLE_zero (w o : Nat) : (zero : Buf n).getLE w o = 0 := by
  have hslice : (zero : Buf n).slice o w = List.replicate w 0 := by
    simp [slice, List.map_const']
  rw [getLE, hslice]
  induction w with
  | zero => rfl
  | succ w ih =>
    have hw : (zero : Buf n).slice o w = List.replicate w 0 := by
      simp [slice, List.map_const']
    rw [List.replicate_succ, ofLE, ih hw]
    rfl

theorem ext_get {b b' : Buf n} (h : ∀ i < n, b.get i = b'.get i) : b = b' := by
  funext ⟨i, hi⟩
  have := h i hi
  simpa [get, hi] using this

end Buf

abbrev Memory : Type := Nat → UInt8

namespace Memory

variable {m m' : Memory} {a b n w v i : Nat}

/-- The number in the `w` bytes from `a` on. -/
def readLE (w : Nat) (m : Memory) (a : Nat) : Nat :=
  ofLE ((List.range w).map fun i => m (a + i))

def store (m : Memory) (a : Nat) (l : List UInt8) : Memory :=
  fun i => if a ≤ i then (l[i - a]?).getD (m i) else m i

def writeLE (w : Nat) (m : Memory) (a v : Nat) : Memory :=
  m.store a (leBytes w v)

/-- Copy `n` bytes from `src` to `dst`, which do not overlap. -/
def copy (m : Memory) (src dst n : Nat) : Memory :=
  fun i => if dst ≤ i ∧ i < dst + n then m (src + (i - dst)) else m i

theorem readLE_congr (h : ∀ i < w, m' (a + i) = m (a + i)) : readLE w m' a = readLE w m a := by
  unfold readLE
  congr 1
  exact List.map_congr_left fun i hi => h i (List.mem_range.mp hi)

theorem store_of_ne {l : List UInt8} (h : i < a ∨ a + l.length ≤ i) : m.store a l i = m i := by
  unfold store
  split
  · rw [List.getElem?_eq_none (by omega)]
    rfl
  · rfl

theorem writeLE_of_ne (h : i < a ∨ a + w ≤ i) : m.writeLE w a v i = m i :=
  store_of_ne (by rwa [length_leBytes])

theorem readLE_writeLE (hv : v < 256 ^ w) : readLE w (m.writeLE w a v) a = v := by
  have hbytes : ((List.range w).map fun i => m.writeLE w a v (a + i)) = leBytes w v := by
    refine List.ext_getElem (by simp) fun i h₁ h₂ => ?_
    have hi : i < w := by simpa using h₂
    simp [writeLE, store, hi]
  rw [readLE, hbytes, ofLE_leBytes, Nat.mod_eq_of_lt hv]

theorem readLE_writeLE_of_ne {w' : Nat} (h : b + w' ≤ a ∨ a + w ≤ b) :
    readLE w' (m.writeLE w a v) b = readLE w' m b :=
  readLE_congr fun i hi => writeLE_of_ne (by omega)

theorem copy_of_ne (src : Nat) {dst : Nat} (h : i < dst ∨ dst + n ≤ i) :
    m.copy src dst n i = m i :=
  if_neg (by omega)

theorem copy_self (m : Memory) (src dst : Nat) (h : i < n) :
    m.copy src dst n (dst + i) = m (src + i) := by
  rw [copy, if_pos ⟨by omega, by omega⟩, Nat.add_sub_cancel_left]

/-- The bytes from `a` on are those of the list. -/
def Has (m : Memory) (a : Nat) (l : List UInt8) : Prop := ∀ i b, l[i]? = some b → m (a + i) = b

theorem has_cons {x : UInt8} {l : List UInt8} : m.Has a (x :: l) ↔ m a = x ∧ m.Has (a + 1) l := by
  constructor
  · intro h
    refine ⟨h 0 x rfl, fun i b hb => ?_⟩
    rw [Nat.add_assoc, Nat.add_comm 1]
    exact h (i + 1) b hb
  · rintro ⟨h₀, h⟩ i b hb
    cases i with
    | zero =>
      rw [List.getElem?_cons_zero] at hb
      cases hb
      exact h₀
    | succ i =>
      rw [List.getElem?_cons_succ] at hb
      have := h i b hb
      rwa [Nat.add_assoc, Nat.add_comm 1] at this

theorem has_append {l l' : List UInt8} :
    m.Has a (l ++ l') ↔ m.Has a l ∧ m.Has (a + l.length) l' := by
  induction l generalizing a with
  | nil =>
    rw [List.nil_append, List.length_nil, Nat.add_zero]
    exact (and_iff_right fun i b hb => by cases hb).symm
  | cons x l ih =>
    rw [List.cons_append, has_cons, ih, has_cons, List.length_cons, and_assoc, Nat.add_assoc,
      Nat.add_comm 1]

theorem has_store (m : Memory) (a : Nat) (l : List UInt8) : (m.store a l).Has a l := by
  intro i b hb
  rw [store, if_pos (Nat.le_add_right a i), Nat.add_sub_cancel_left, hb]
  rfl

theorem Has.store {l l' : List UInt8} (h : m.Has b l')
    (hapart : b + l'.length ≤ a ∨ a + l.length ≤ b) :
    (m.store a l).Has b l' := by
  intro i x hx
  have hi := (List.getElem?_eq_some_iff.mp hx).1
  rw [store_of_ne (by omega)]
  exact h i x hx

theorem Has.readLE_eq (h : m.Has a (leBytes w v)) (hv : v < 256 ^ w) : m.readLE w a = v := by
  have hbytes : ((List.range w).map fun i => m (a + i)) = leBytes w v := by
    refine List.ext_getElem (by simp) fun i h₁ h₂ => ?_
    rw [List.getElem_map, List.getElem_range]
    exact h i _ (List.getElem?_eq_getElem h₂)
  rw [readLE, hbytes, ofLE_leBytes, Nat.mod_eq_of_lt hv]

def slice (m : Memory) (a n : Nat) : List UInt8 :=
  (List.range n).map fun i => m (a + i)

@[simp] theorem length_slice : (m.slice a n).length = n := by
  simp [slice]

theorem slice_add (m : Memory) (a n k : Nat) :
    m.slice a (n + k) = m.slice a n ++ m.slice (a + n) k := by
  simp [slice, List.range_add, Nat.add_assoc]

theorem take_drop_slice {k : Nat} (h : i + k ≤ n) :
    ((m.slice a n).drop i).take k = m.slice (a + i) k := by
  obtain ⟨rest, rfl⟩ := Nat.exists_eq_add_of_le h
  rw [slice_add, slice_add, List.append_assoc, List.drop_left' length_slice,
    List.take_left' length_slice]

theorem store_nil (m : Memory) (a : Nat) : m.store a [] = m := by
  funext c
  exact store_of_ne (by simp; omega)

theorem store_take (m : Memory) (a : Nat) (buf : List UInt8) (done len : Nat) :
    (m.store a (buf.take done)).store (a + done) ((buf.drop done).take len) =
      m.store a (buf.take (done + len)) := by
  funext c
  unfold Memory.store
  by_cases hlow : a ≤ c
  · by_cases hhigh : a + done ≤ c
    · have htake : (buf.take done)[c - a]? = none :=
        List.getElem?_eq_none (by rw [List.length_take]; omega)
      rw [if_pos hhigh, if_pos hlow, if_pos hlow, htake, List.getElem?_take, List.getElem?_take,
        List.getElem?_drop, show done + (c - (a + done)) = c - a by omega]
      by_cases hend : c - a < done + len
      · rw [if_pos (by omega), if_pos hend]
        rfl
      · rw [if_neg (by omega), if_neg hend]
        rfl
    · rw [if_neg hhigh, if_pos hlow, if_pos hlow, List.getElem?_take_of_lt (by omega),
        List.getElem?_take_of_lt (by omega)]
  · rw [if_neg (by omega), if_neg hlow, if_neg hlow]

end Memory
end VibeOS.Lib
