import VibeOS.Block.Registry

/-!
What every run of calls keeps of the registry, where each device has an id of its own. A published
device's ancestors are published with it, so they fit into the table and their number is exact; the
deepest device of a subtree is then the parent of no published one, and taking it out leaves the
table closed under parents. The subtree comes out with every device before its parent.
-/
namespace VibeOS.Block.Registry
open Lib BlockRef
variable {H : Type}

/-- A family of devices with everything above them, in which an id stands for one device. -/
structure Family (U : BlockRef → Prop) : Prop where
  up : ∀ r p, U r → r.parent = some p → U p
  inj : ∀ a b, U a → U b → a.id = b.id → a = b

def devices (s : Registry H) : Multiset BlockRef :=
  filled s.slots

/-- What holds between calls: names and ids are unique, parents are published, and the marks say
who is in the table. -/
structure Consistent (s : Registry H) : Prop where
  names : (s.devices.map name).Nodup
  ids : (s.devices.map BlockRef.id).Nodup
  parents : ∀ r ∈ s.devices, ∀ p, r.parent = some p → p ∈ s.devices
  marks : ∀ r, s.published r = true ↔ r ∈ s.devices

structure Inv (U : BlockRef → Prop) (s : Registry H) : Prop extends Consistent s where
  known : ∀ r ∈ s.devices, U r

variable {U : BlockRef → Prop} {s s' : Registry H} {r dev : BlockRef} {i : Fin maxBlockdevs}

theorem Family.line (hU : Family U) (h : U r) : ∀ q ∈ r.line, U q := by
  induction r with
  | disk =>
    intro q hq
    rwa [List.mem_singleton.mp hq]
  | part id name parent info ih =>
    exact List.forall_mem_cons.mpr ⟨h, ih (hU.up _ _ h rfl)⟩

theorem Family.under_iff (hU : Family U) (hr : U r) (hdev : U dev) :
    r.under dev = true ↔ dev ∈ r.line := by
  rw [under_iff_id]
  constructor
  · rintro ⟨q, hq, hid⟩
    rwa [← hU.inj q dev (hU.line hr q hq) hdev hid]
  · exact fun h => ⟨dev, h, rfl⟩

theorem mem_devices : r ∈ s.devices ↔ ∃ i, s.slots i = some r :=
  mem_filled

theorem isSome_findId {id : Nat} : (s.findId id).isSome = true ↔ ∃ r ∈ s.devices, r.id = id := by
  rw [findId, List.find?_isSome]
  simp only [List.mem_finRange, true_and, Option.any_eq_true, beq_iff_eq, mem_devices]
  constructor
  · rintro ⟨i, r, hi, hid⟩
    exact ⟨r, ⟨i, hi⟩, hid⟩
  · rintro ⟨r, ⟨i, hi⟩, hid⟩
    exact ⟨i, r, hi, hid⟩

theorem Inv.isSome_findId (hU : Family U) (h : Inv U s) (hdev : U dev) :
    (s.findId dev.id).isSome = true ↔ dev ∈ s.devices := by
  rw [Registry.isSome_findId]
  constructor
  · rintro ⟨r, hr, hid⟩
    rwa [← hU.inj r dev (h.known r hr) hdev hid]
  · exact fun hin => ⟨dev, hin, rfl⟩

theorem taken_eq_false (h : ¬ s.taken dev) :
    ∀ r ∈ s.devices, r.id ≠ dev.id ∧ r.name ≠ dev.name := by
  intro r hr
  obtain ⟨i, hi⟩ := mem_devices.mp hr
  rw [taken, List.any_eq_true] at h
  refine ⟨fun hid => h ⟨i, List.mem_finRange i, ?_⟩, fun hname => h ⟨i, List.mem_finRange i, ?_⟩⟩
  · simp [hi, hid]
  · simp [hi, hname]

theorem free_eq_some (h : s.free = some i) : s.slots i = none := by
  simpa using List.find?_some h

theorem new_inv : Inv U (Registry.new : Registry H) := by
  have hnone : (Registry.new : Registry H).devices = 0 := filled_empty
  have hmarks : ∀ r, (Registry.new : Registry H).published r = false := fun _ => rfl
  refine ⟨⟨?_, ?_, ?_, fun r => ?_⟩, ?_⟩ <;> simp [hnone, hmarks]

theorem Inv.of_eq (h : Inv U s) (hslots : s'.slots = s.slots)
    (hmarks : s'.published = s.published) :
    Inv U s' := by
  have hdev : s'.devices = s.devices := congrArg filled hslots
  refine ⟨⟨?_, ?_, ?_, fun r => ?_⟩, ?_⟩
  · exact hdev ▸ h.names
  · exact hdev ▸ h.ids
  · exact hdev ▸ h.parents
  · rw [hdev, hmarks]
    exact h.marks r
  · exact hdev ▸ h.known

theorem devices_publish (hi : s.slots i = none) :
    (s.publish dev i).devices = dev ::ₘ s.devices := by
  unfold devices publish
  rw [filled_update_some, filled_of_none hi]

theorem devices_take (hi : s.slots i = some r) : s.devices = r ::ₘ (s.take r i).devices := by
  unfold devices take
  rw [filled_update_none, filled_of_some hi]

theorem Inv.publish (h : Inv U s) (hdev : U dev) (hfree : ¬ s.taken dev)
    (hparent : ∀ p, dev.parent = some p → p ∈ s.devices) (hi : s.slots i = none) :
    Inv U (s.publish dev i) := by
  have hnew := taken_eq_false hfree
  have hall : (s.publish dev i).devices = dev ::ₘ s.devices := devices_publish hi
  refine ⟨⟨?_, ?_, ?_, fun r => ?_⟩, ?_⟩
  · rw [hall, Multiset.map_cons, Multiset.nodup_cons, Multiset.mem_map]
    exact ⟨fun ⟨r, hr, hname⟩ => (hnew r hr).2 hname, h.names⟩
  · rw [hall, Multiset.map_cons, Multiset.nodup_cons, Multiset.mem_map]
    exact ⟨fun ⟨r, hr, hid⟩ => (hnew r hr).1 hid, h.ids⟩
  · rw [hall]
    refine Multiset.forall_mem_cons.mpr ⟨fun p hp => ?_, fun r hr p hp => ?_⟩
    · exact Multiset.mem_cons_of_mem (hparent p hp)
    · exact Multiset.mem_cons_of_mem (h.parents r hr p hp)
  · rw [hall, Multiset.mem_cons]
    by_cases hr : r = dev
    · simp [Registry.publish, hr]
    · simp [Registry.publish, hr, h.marks r]
  · rw [hall]
    exact Multiset.forall_mem_cons.mpr ⟨hdev, h.known⟩

theorem Inv.take (h : Inv U s) (hi : s.slots i = some r)
    (hleaf : ∀ x ∈ s.devices, x.parent ≠ some r) :
    Inv U (s.take r i) ∧ r ∉ (s.take r i).devices := by
  have hall := devices_take hi
  have hids := h.ids
  rw [hall, Multiset.map_cons, Multiset.nodup_cons] at hids
  have hout : r ∉ (s.take r i).devices := fun hr => hids.1 (Multiset.mem_map_of_mem _ hr)
  have hsub : ∀ x ∈ (s.take r i).devices, x ∈ s.devices := by
    intro x hx
    rw [hall]
    exact Multiset.mem_cons_of_mem hx
  refine ⟨⟨⟨?_, hids.2, fun x hx p hp => ?_, fun x => ?_⟩, fun x hx => h.known x (hsub x hx)⟩, hout⟩
  · have hnames := h.names
    rw [hall, Multiset.map_cons, Multiset.nodup_cons] at hnames
    exact hnames.2
  · have hp' := h.parents x (hsub x hx) p hp
    rw [hall, Multiset.mem_cons] at hp'
    refine hp'.resolve_left fun hpr => hleaf x (hsub x hx) ?_
    rw [hp, hpr]
  · by_cases hx : x = r
    · subst hx
      refine iff_of_false ?_ hout
      simp [Registry.take]
    · have hmark := h.marks x
      rw [hall, Multiset.mem_cons, or_iff_right hx] at hmark
      rw [← hmark]
      simp [Registry.take, hx]

theorem Inv.line_sub (h : Inv U s) (hr : r ∈ s.devices) : ∀ q ∈ r.line, q ∈ s.devices := by
  induction r with
  | disk =>
    intro q hq
    rwa [List.mem_singleton.mp hq]
  | part id name parent info ih =>
    exact List.forall_mem_cons.mpr ⟨hr, ih (h.parents _ hr _ rfl)⟩

theorem Inv.depth_eq (h : Inv U s) (hr : r ∈ s.devices) : r.depth = r.level := by
  have hle : (r.line : Multiset BlockRef) ≤ s.devices :=
    (Multiset.le_iff_subset (Multiset.coe_nodup.mpr r.nodup_line)).mpr fun q hq =>
      h.line_sub hr q hq
  have hcard := (Multiset.card_le_card hle).trans (card_filled_le s.slots)
  rw [Multiset.coe_card, length_line] at hcard
  have hmax : maxBlockdevs ≤ u64Max := by decide
  rw [depth, depthFrom_eq r (by omega), Nat.zero_add]

theorem Inv.pick_some {d : Nat} (hU : Family U) (h : Inv U s) (hdev : U dev)
    (hp : s.pick dev = some (i, d)) :
    ∃ r, s.slots i = some r ∧ r.under dev = true ∧ ∀ x ∈ s.devices, x.parent ≠ some r := by
  obtain ⟨hfrom, -, hmax⟩ := pickMax_eq_some hp
  obtain ⟨-, hkey⟩ := hfrom.resolve_left nofun
  obtain ⟨r, hr, rfl⟩ := Option.map_eq_some_iff.mp hkey
  obtain ⟨hi, hunder⟩ := Option.filter_eq_some_iff.mp hr
  refine ⟨r, hi, hunder, fun x hx hpar => ?_⟩
  have hin : r ∈ s.devices := mem_devices.mpr ⟨i, hi⟩
  obtain ⟨j, hj⟩ := mem_devices.mp hx
  have hxunder : x.under dev = true := by
    rw [hU.under_iff (h.known x hx) hdev, line_of_parent hpar]
    exact List.mem_cons_of_mem x ((hU.under_iff (h.known r hin) hdev).mp hunder)
  have hle := hmax j (List.mem_finRange j) x.depth (by simp [hj, hxunder])
  rw [h.depth_eq hx, h.depth_eq hin, level_of_parent hpar] at hle
  omega

theorem pick_none (hp : s.pick dev = none) : ∀ r ∈ s.devices, r.under dev = false := by
  intro r hr
  obtain ⟨i, hi⟩ := mem_devices.mp hr
  have hkey := (pickMax_eq_none hp).2 i (List.mem_finRange i)
  rw [hi] at hkey
  simpa using hkey

theorem countUnder_eq : s.countUnder dev = (s.devices.filter fun r => r.under dev = true).card := by
  rw [countUnder, devices, filled, ← coe_map_finRange, Multiset.filterMap_coe, Multiset.filter_coe,
    Multiset.coe_card, ← List.countP_eq_length_filter, List.countP_filterMap, List.countP_map]
  refine List.countP_congr fun i _ => ?_
  cases hi : s.slots i with
  | none => simp [hi]
  | some r => simp [hi]

/-- As many rounds as the subtree has devices take it out, every device before its parent, and leave
the other slots as they are. -/
theorem takeSubtree_spec (hU : Family U) (hdev : U dev) {outLen : Nat} (n k : Nat) (h : Inv U s)
    (hn : (s.devices.filter fun r => r.under dev = true).card = n) (hk : k + n ≤ outLen) :
    let res := takeSubtree dev outLen n k s
    (res.1 : Multiset BlockRef) = s.devices.filter (fun r => r.under dev = true) ∧
      res.1.Pairwise (fun x y => y.parent ≠ some x) ∧
      (∀ j, res.2.slots j = (s.slots j).filter fun r => !r.under dev) ∧ Inv U res.2 := by
  induction n generalizing s k with
  | zero =>
    have hnone := Multiset.card_eq_zero.mp hn
    refine ⟨hnone.symm, .nil, fun j => ?_, h⟩
    change s.slots j = _
    cases hj : s.slots j with
    | none => rfl
    | some r =>
      have hr : ¬ r.under dev = true :=
        (Multiset.filter_eq_nil.mp hnone) r (mem_devices.mpr ⟨j, hj⟩)
      exact (Option.filter_some_pos (by simp [hr])).symm
  | succ n ih =>
    cases hp : s.pick dev with
    | none =>
      have hempty : (s.devices.filter fun r => r.under dev = true) = 0 :=
        Multiset.filter_eq_nil.mpr fun r hr => by simp [pick_none hp r hr]
      rw [hempty] at hn
      cases hn
    | some p =>
      obtain ⟨i, d⟩ := p
      obtain ⟨r, hi, hunder, hleaf⟩ := h.pick_some hU hdev hp
      obtain ⟨hinv, hout⟩ := h.take hi hleaf
      have hall := devices_take hi
      rw [hall, Multiset.filter_cons_of_pos (p := fun x => BlockRef.under x dev = true) _ hunder]
        at hn ⊢
      rw [Multiset.card_cons, Nat.add_right_cancel_iff] at hn
      obtain ⟨hhanded, hpair, hslots, hlast⟩ := ih (k + 1) hinv hn (by omega)
      have hrun : takeSubtree dev outLen (n + 1) k s =
          (r :: (takeSubtree dev outLen n (k + 1) (s.take r i)).1,
            (takeSubtree dev outLen n (k + 1) (s.take r i)).2) := by
        rw [takeSubtree, hp]
        dsimp only
        rw [hi]
        dsimp only
        rw [if_pos (by omega)]
      rw [hrun]
      refine ⟨?_, List.pairwise_cons.mpr ⟨fun y hy hpar => ?_, hpair⟩, fun j => ?_, hlast⟩
      · rw [← Multiset.cons_coe, hhanded]
      · -- a later one is still in the table when `r` no longer is
        have hy' : y ∈ (s.take r i).devices := by
          rw [← Multiset.mem_coe, hhanded] at hy
          exact Multiset.mem_of_mem_filter hy
        exact hout (hinv.parents y hy' r hpar)
      · rw [hslots j]
        by_cases hj : j = i
        · subst hj
          rw [hi, Option.filter_some_neg (by simp [hunder])]
          simp [Registry.take]
        · simp [Registry.take, Function.update_of_ne hj]

theorem unpublish_eq (dev : BlockRef) (outLen : Nat) (s : Registry H) :
    unpublish dev outLen s =
      if (s.findId dev.id).isSome then
        if s.countUnder dev ≤ outLen then
          (.ok (takeSubtree dev outLen (s.countUnder dev) 0 s).1,
            (takeSubtree dev outLen (s.countUnder dev) 0 s).2)
        else (.error .inval, s)
      else (.error .gone, s) := by
  by_cases hfound : (s.findId dev.id).isSome
  · rw [if_pos hfound]
    by_cases hroom : s.countUnder dev ≤ outLen
    · rw [if_pos hroom]
      simp only [unpublish, Eff.require, Eff.get, bind, if_pos hfound, if_pos hroom]
      rfl
    · rw [if_neg hroom]
      simp only [unpublish, Eff.require, Eff.get, bind, if_pos hfound, if_neg hroom]
      rfl
  · rw [if_neg hfound]
    simp only [unpublish, Eff.require, Eff.get, bind, if_neg hfound]
    rfl

/-- The published devices at and below `dev`. -/
def subtree (s : Registry H) (dev : BlockRef) : Multiset BlockRef :=
  s.devices.filter fun r => dev ∈ r.line

/-- With room for it, `unpublish` of a published device takes its subtree out of the table and
nothing else, and hands it back with every device before its parent; otherwise it fails and changes
nothing. -/
def Unpublishes (s : Registry H) (dev : BlockRef) (outLen : Nat) : Prop :=
  if dev ∈ s.devices ∧ (s.subtree dev).card ≤ outLen then
    ∃ handed s', unpublish dev outLen s = (.ok handed, s') ∧
      (handed : Multiset BlockRef) = s.subtree dev ∧
      handed.Pairwise (fun x y => y.parent ≠ some x) ∧
      ∀ i, s'.slots i = (s.slots i).filter fun r => dev ∉ r.line
  else ∃ e, unpublish dev outLen s = (.error e, s)

section
variable (hU : Family U) (h : Inv U s) (hdev : U dev)
include hU h hdev

theorem Inv.subtree_eq : s.devices.filter (fun r => r.under dev = true) = s.subtree dev :=
  Multiset.filter_congr fun r hr => hU.under_iff (h.known r hr) hdev

theorem Inv.unpublish (outLen : Nat) :
    s.Unpublishes dev outLen ∧ Inv U (Registry.unpublish dev outLen s).2 := by
  have hcount : s.countUnder dev = (s.subtree dev).card := by
    rw [countUnder_eq, h.subtree_eq hU hdev]
  unfold Unpublishes
  rw [unpublish_eq]
  simp only [h.isSome_findId hU hdev]
  by_cases hin : dev ∈ s.devices
  · by_cases hroom : (s.subtree dev).card ≤ outLen
    · obtain ⟨hhanded, hpair, hslots, hinv⟩ := takeSubtree_spec hU hdev _ 0 h countUnder_eq.symm
        (show 0 + s.countUnder dev ≤ outLen by omega)
      rw [if_pos ⟨hin, hroom⟩, if_pos hin, if_pos (by omega)]
      refine ⟨⟨_, _, rfl, hhanded.trans (h.subtree_eq hU hdev), hpair, fun i => ?_⟩, hinv⟩
      rw [hslots i]
      cases hi : s.slots i with
      | none => rfl
      | some r =>
        have hr := hU.under_iff (h.known r (mem_devices.mpr ⟨i, hi⟩)) hdev
        simp [Option.filter, ← hr]
    · rw [if_neg fun hc => hroom hc.2, if_pos hin, if_neg (by omega)]
      exact ⟨⟨_, rfl⟩, h⟩
  · rw [if_neg fun hc => hin hc.1, if_neg hin]
    exact ⟨⟨_, rfl⟩, h⟩

theorem Inv.insert : Inv U (Registry.insert dev s).2 := by
  refine Eff.snd_of_wp ?_
  unfold Registry.insert
  rw [Eff.wp_bind, Eff.wp_get]
  dsimp only
  rw [Eff.wp_bind]
  refine Eff.wp_require_of (fun hfree => ?_) fun _ => h
  rw [Eff.wp_bind]
  refine Eff.wp_require_of (fun hpar => ?_) fun _ => h
  rw [Eff.wp_bind]
  refine Eff.wp_ofExcept_of (fun i hi => ?_) fun _ _ => h
  refine h.publish hdev hfree (fun p hp => ?_) (free_eq_some ?_)
  · rw [hp, Option.all_some] at hpar
    exact (h.isSome_findId hU (hU.up dev p hdev hp)).mp hpar
  · cases hs : s.free with
    | none =>
      rw [hs] at hi
      cases hi
    | some j =>
      rw [hs] at hi
      exact congrArg some (Except.ok.inj hi)

end

theorem Inv.kill_published (h : Inv U s) (hin : dev ∈ s.devices) :
    kill dev s = (.error .inval, s) := by
  have hmark := (h.marks dev).mpr hin
  simp only [kill, Eff.require, Eff.get, bind, hmark, not_true_eq_false, if_false]
  rfl

theorem Inv.setHolder (h : Inv U s) (dev : BlockRef) (v : H) :
    Inv U (Registry.setHolder dev v s).2 := by
  refine Eff.snd_of_wp ?_
  unfold Registry.setHolder
  rw [Eff.wp_bind, Eff.wp_get]
  dsimp only
  split
  · exact h.of_eq rfl rfl
  · rw [Eff.wp_ite]
    split
    · exact h.of_eq rfl rfl
    · exact h.of_eq rfl rfl

theorem Inv.takeHolder (h : Inv U s) (dev : BlockRef) : Inv U (Registry.takeHolder dev s).2 := by
  unfold Registry.takeHolder
  split
  · exact h
  · exact h.of_eq rfl rfl

theorem Inv.kill (h : Inv U s) (dev : BlockRef) : Inv U (Registry.kill dev s).2 := by
  refine Eff.snd_of_wp ?_
  unfold Registry.kill
  rw [Eff.wp_bind, Eff.wp_get]
  dsimp only
  rw [Eff.wp_bind]
  exact Eff.wp_require_of (fun _ => h.of_eq rfl rfl) fun _ => h

theorem Inv.step (hU : Family U) (h : Inv U s) (c : Call H) (hc : U c.dev) : Inv U (s.step c) := by
  cases c with
  | insert dev => exact h.insert hU hc
  | setHolder dev v => exact h.setHolder dev v
  | takeHolder dev => exact h.takeHolder dev
  | unpublish dev outLen => exact (h.unpublish hU hc outLen).2
  | kill dev => exact h.kill dev

theorem Inv.run (hU : Family U) (h : Inv U s) (calls : List (Call H))
    (hcalls : ∀ c ∈ calls, U c.dev) :
    Inv U (s.run calls) := by
  induction calls generalizing s with
  | nil => exact h
  | cons c calls ih =>
    rw [List.forall_mem_cons] at hcalls
    exact ih (h.step hU c hcalls.1) hcalls.2

/-- Every device has its own id, among some devices and all those above them. -/
def OwnIds (devs : List BlockRef) : Prop :=
  ∀ a ∈ devs.flatMap line, ∀ b ∈ devs.flatMap line, a.id = b.id → a = b

instance (devs : List BlockRef) : Decidable (OwnIds devs) :=
  inferInstanceAs
    (Decidable (∀ a ∈ devs.flatMap line, ∀ b ∈ devs.flatMap line, a.id = b.id → a = b))

theorem parent_mem_line {p : BlockRef} {q : BlockRef} (hq : q ∈ r.line) (hp : q.parent = some p) :
    p ∈ r.line := by
  induction r with
  | disk =>
    rw [List.mem_singleton.mp hq] at hp
    cases hp
  | part id name parent info ih =>
    rcases List.mem_cons.mp hq with rfl | hq
    · obtain rfl := Option.some.inj hp
      exact List.mem_cons_of_mem _ parent.mem_line_self
    · exact List.mem_cons_of_mem _ (ih hq)

theorem OwnIds.family {devs : List BlockRef} (h : OwnIds devs) :
    Family fun r => r ∈ devs.flatMap line := by
  refine ⟨fun r p hr hp => ?_, fun a b ha hb => h a ha b hb⟩
  obtain ⟨dev, hdev, hline⟩ := List.mem_flatMap.mp hr
  exact List.mem_flatMap.mpr ⟨dev, hdev, parent_mem_line hline hp⟩

/-- After any calls the registry is consistent, and in that state `unpublish` of any device is all
or nothing, with every device before its parent, and a published device is not killed. -/
theorem registry_runs (calls : List (Call H)) (dev : BlockRef) (outLen : Nat)
    (hids : OwnIds (dev :: calls.map Call.dev)) :
    let s := (Registry.new : Registry H).run calls
    s.Consistent ∧ s.Unpublishes dev outLen ∧
      (dev ∈ s.devices → kill dev s = (.error .inval, s)) := by
  have hU := hids.family
  have hself : ∀ d ∈ dev :: calls.map Call.dev, d ∈ (dev :: calls.map Call.dev).flatMap line :=
    fun d hd => List.mem_flatMap.mpr ⟨d, hd, d.mem_line_self⟩
  have hinv : Inv _ ((Registry.new : Registry H).run calls) :=
    new_inv.run hU calls fun c hc =>
      hself c.dev (List.mem_cons_of_mem _ (List.mem_map_of_mem hc))
  have hdev := hself dev List.mem_cons_self
  exact ⟨hinv.toConsistent, (hinv.unpublish hU hdev outLen).1, hinv.kill_published⟩

/-- A disk, a partition of it and a partition of that one. -/
def nested : BlockRef × BlockRef × BlockRef :=
  let disk := BlockRef.disk 1 ⟨[118, 100, 97], rfl⟩ ⟨512, 4096, false, true⟩
  let part := BlockRef.part 2 ⟨[118, 100, 97, 112, 49], rfl⟩ disk ⟨64, 2048, .mbr 131⟩
  (disk, part, BlockRef.part 3 ⟨[118, 100, 97, 112, 49, 112, 49], rfl⟩ part ⟨8, 64, .mbr 131⟩)

/-- The partition stays published when it is killed, and is handed back after the one on it. -/
theorem registry_runs_nested :
    let s := (Registry.new : Registry Unit).run
      [.insert nested.1, .insert nested.2.1, .insert nested.2.2, .kill nested.2.1]
    s.Consistent ∧ s.Unpublishes nested.2.1 2 ∧ nested.2.1 ∈ s.devices ∧
      kill nested.2.1 s = (.error .inval, s) ∧
      (unpublish nested.2.1 2 s).1 = .ok [nested.2.2, nested.2.1] := by
  intro s
  obtain ⟨hs, hun, hkill⟩ := registry_runs (H := Unit)
    [.insert nested.1, .insert nested.2.1, .insert nested.2.2, .kill nested.2.1] nested.2.1 2
    (by decide)
  have hin : nested.2.1 ∈ s.devices := mem_devices.mpr ⟨⟨1, by decide⟩, by decide⟩
  exact ⟨hs, hun, hin, hkill hin, rfl⟩

end VibeOS.Block.Registry
