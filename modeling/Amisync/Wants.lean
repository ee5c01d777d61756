import Amisync.Claims
import Amisync.Lib.Probe
import Mathlib.Data.Nat.Bitwise

/-!
# Content that a worker still wants (`foldstate.c`)

A file about to be deleted may hold the content that another fetch needs. Every
worker puts what it wants in a set of its own beside the folder's index, and a
deletion asks all the sets.

* `FolderWantSet`: one set, an open-addressed table that grows up to a limit,
  past which it answers yes to everything.
* `wantPut_stores`, `wantGrow_keeps`, `record_ok`: no key is lost on the way, and
  no search goes on for ever.
* `FolderWants.step`: the three calls that change the sets, from any owner, with
  memory granted or not.
* `wanted_kept`: what was added is wanted, as long as each owner that adds has a
  set or finds one free.
* `seventeenth_forgotten`: without one, the addition is lost.
-/

namespace Amisync.Wants

open Claims (foldstateMaxClaims)

def foldstateWantMax : Nat := 4096

/-- Never 0, which marks a free slot. -/
def wantKey (contentHash : Hash) (size : Int) : UInt32 :=
  let h := nameHash contentHash.1
  let h := (h ^^^ UInt32.ofNat (size % 2 ^ 32).toNat) * 16777619
  let h := (h ^^^ UInt32.ofNat (size / 2 ^ 32 % 2 ^ 32).toNat) * 16777619
  if h = 0 then 1 else h

theorem wantKey_ne_zero (contentHash : Hash) (size : Int) : wantKey contentHash size ≠ 0 := by
  rw [wantKey]
  split
  · decide
  · assumption

/-! ## One set -/

structure FolderWantSet (W : Type*) where
  owner : Option W
  keys : List UInt32
  n : Nat
  overflow : Bool
  deriving DecidableEq

namespace FolderWantSet
variable {W : Type*}

def free : FolderWantSet W := ⟨none, [], 0, false⟩

def cap (w : FolderWantSet W) : Nat := w.keys.length

/-- `i & mask` -/
def wrap (w : FolderWantSet W) (i : Nat) : Nat := i &&& (w.cap - 1)

/-- The loop of `want_put` and of `foldstate_want_any`; a search that has seen the whole table
once would go on for ever. -/
def probe (w : FolderWantSet W) (key : UInt32) : Option Nat :=
  Probe.find 0 w.keys key w.wrap w.cap (w.wrap key.toNat)

def wantPut (w : FolderWantSet W) (key : UInt32) : Option (FolderWantSet W) :=
  (w.probe key).map fun i =>
    if w.keys.getD i 0 = 0 then { w with keys := w.keys.set i key, n := w.n + 1 } else w

/-- The set, and whether it has grown. `granted`: there is memory for the new table. -/
def wantGrow (w : FolderWantSet W) (granted : Bool) : Option (FolderWantSet W × Bool) :=
  let newcap := if w.cap = 0 then 64 else w.cap * 2
  if foldstateWantMax * 2 < newcap then some (w, false)
  else if !granted then some (w, false)
  else
    let empty := { w with keys := List.replicate newcap 0, n := 0 }
    ((w.keys.filter (· ≠ 0)).foldlM wantPut empty).map fun w' => (w', true)

/-- `foldstate_want_add`, on the set that was found. -/
def record (w : FolderWantSet W) (key : UInt32) (granted : Bool) : Option (FolderWantSet W) :=
  if w.overflow then some w
  else if w.cap ≤ w.n * 2 then
    (w.wantGrow granted).bind fun r =>
      if r.2 then r.1.wantPut key else some { r.1 with overflow := true }
  else w.wantPut key

/-- The part of `want_set` that makes a free slot the owner's. -/
def taken (w : FolderWantSet W) (owner : W) : FolderWantSet W :=
  if w.owner.isNone then { w with owner := some owner, n := 0, overflow := false } else w

/-! ## No key is lost -/

/-- A search for the key meets it. -/
def Has (w : FolderWantSet W) (key : UInt32) : Prop :=
  Probe.Reached 0 w.keys key (w.wrap key.toNat)

def Wanted (w : FolderWantSet W) (key : UInt32) : Prop := w.overflow = true ∨ w.Has key

/-- What holds of every set: at most half of its slots are in use. -/
structure Ok (w : FolderWantSet W) : Prop where
  cap : w.keys = [] ∨ ∃ b, w.cap = 2 ^ (b + 1)
  count : w.n = Probe.load 0 w.keys
  half : w.n * 2 ≤ w.cap
  free : w.owner = none → w.keys = []

variable {w w' w'' : FolderWantSet W} {key : UInt32} {ks : List UInt32} {b : Nat}

theorem wrap_eq (hb : w.cap = 2 ^ b) (i : Nat) : w.wrap i = i % w.keys.length := by
  rw [wrap, hb, Nat.and_two_pow_sub_one_eq_mod]
  exact congrArg (i % ·) hb.symm

theorem wrap_lt (hb : w.cap = 2 ^ b) (i : Nat) : w.wrap i < w.keys.length := by
  rw [wrap_eq hb]
  exact Nat.mod_lt _ (lt_of_lt_of_eq (Nat.two_pow_pos b) hb.symm)

/-- A table of a power of two with a free slot: the search ends. -/
theorem probe_isSome (hb : w.cap = 2 ^ b) (hn : Probe.load 0 w.keys < w.cap) (key : UInt32) :
    (w.probe key).isSome :=
  Probe.find_isSome (wrap_eq hb) (wrap_lt hb _) (Probe.mem_of_load hn) key

/-- `w'` is `w` with the keys `ks` put in. -/
structure Stores (w w' : FolderWantSet W) (ks : List UInt32) : Prop where
  owner : w'.owner = w.owner
  overflow : w'.overflow = w.overflow
  cap : w'.cap = w.cap
  count : w'.n = Probe.load 0 w'.keys
  grown : w'.n ≤ w.n + ks.length
  has : ∀ k ∈ ks, w'.Has k
  keeps : ∀ k, k ≠ 0 → w.Has k → w'.Has k

theorem Stores.refl (hn : w.n = Probe.load 0 w.keys) : Stores w w [] where
  owner := rfl
  overflow := rfl
  cap := rfl
  count := hn
  grown := Nat.le_refl _
  has := fun _ hk => absurd hk List.not_mem_nil
  keeps := fun _ _ h => h

theorem Stores.cons (h : Stores w w' [key]) (h' : Stores w' w'' ks) (hk : key ≠ 0) :
    Stores w w'' (key :: ks) where
  owner := h'.owner.trans h.owner
  overflow := h'.overflow.trans h.overflow
  cap := h'.cap.trans h.cap
  count := h'.count
  grown := by
    have h₁ := h.grown
    have h₂ := h'.grown
    rw [List.length_cons, List.length_nil] at h₁
    rw [List.length_cons]
    omega
  has := fun k hm => by
    rcases List.mem_cons.mp hm with rfl | hm
    · exact h'.keeps k hk (h.has k List.mem_cons_self)
    · exact h'.has k hm
  keeps := fun k h0 hh => h'.keeps k h0 (h.keeps k h0 hh)

/-- **One key.** -/
theorem wantPut_stores (hb : w.cap = 2 ^ b) (hn : w.n = Probe.load 0 w.keys) (hroom : w.n < w.cap)
    (hk : key ≠ 0) : ∃ w', w.wantPut key = some w' ∧ Stores w w' [key] := by
  have hw := wrap_eq hb
  have hlt := wrap_lt hb key.toNat
  have hfree : (0 : UInt32) ∈ w.keys := Probe.mem_of_load (hn ▸ hroom)
  obtain ⟨i, hi⟩ := Option.isSome_iff_exists.mp (probe_isSome hb (hn ▸ hroom) key)
  rw [wantPut, hi, Option.map_some]
  rw [probe] at hi
  by_cases h0 : w.keys.getD i 0 = 0
  · rw [if_pos h0]
    have hil : i < w.keys.length := by
      obtain ⟨d, hd, -⟩ := Probe.find_spec hw hlt hfree key
      have hid := Option.some.inj (hd ▸ hi : some _ = some i)
      exact hid ▸ Nat.mod_lt _ (Nat.zero_lt_of_lt hlt)
    have hcap : (w.keys.set i key).length = w.keys.length := List.length_set
    have hhas : ∀ k, k ≠ 0 → w.Has k →
        Has { w with keys := w.keys.set i key, n := w.n + 1 } k := fun k hk0 hh => by
      rw [Has, wrap, cap, hcap]
      exact Probe.reached_set h0 hk0 hh
    refine ⟨_, rfl, rfl, rfl, hcap, ?_, Nat.le_refl _, fun k hm => ?_, hhas⟩
    · exact (congrArg (· + 1) hn).trans (Probe.load_set hk hil h0).symm
    · obtain rfl := List.mem_singleton.mp hm
      rw [Has, wrap, cap, hcap]
      exact Probe.reached_set_self hw hlt hfree hi h0
  · rw [if_neg h0]
    refine ⟨_, rfl, rfl, rfl, rfl, hn, Nat.le_succ _, fun k hm => ?_, fun _ _ h => h⟩
    obtain rfl := List.mem_singleton.mp hm
    exact Probe.reached_of_find hw hlt hfree hi h0

/-- A run of keys, in a table that has room for all of them. -/
theorem foldlM_stores (ks : List UInt32) (hb : w.cap = 2 ^ b) (hn : w.n = Probe.load 0 w.keys)
    (hroom : w.n + ks.length ≤ w.cap) (hks : ∀ k ∈ ks, k ≠ 0) :
    ∃ w', ks.foldlM wantPut w = some w' ∧ Stores w w' ks := by
  induction ks generalizing w with
  | nil => exact ⟨w, rfl, .refl hn⟩
  | cons k ks ih =>
    rw [List.length_cons] at hroom
    have hk := hks k List.mem_cons_self
    obtain ⟨w₁, hput, hs⟩ := wantPut_stores hb hn (by omega) hk
    have hgrown := hs.grown
    rw [List.length_cons, List.length_nil] at hgrown
    obtain ⟨w₂, hrest, hs'⟩ := ih (hs.cap.trans hb) hs.count (by rw [hs.cap]; omega)
      fun k hk => hks k (List.mem_cons_of_mem _ hk)
    exact ⟨w₂, by rw [List.foldlM_cons, hput]; exact hrest, hs.cons hs' hk⟩

theorem load_replicate (c : Nat) : Probe.load 0 (List.replicate c (0 : UInt32)) = 0 := by
  simp [Probe.load, List.countP_replicate]

/-- **Growth.** Refused, the set is the same; otherwise it has all its keys, and room. -/
theorem wantGrow_keeps (h : w.Ok) (granted : Bool) :
    w.wantGrow granted = some (w, false) ∨
      ∃ w' b, w.wantGrow granted = some (w', true) ∧ w'.owner = w.owner ∧
        w'.overflow = w.overflow ∧ w'.cap = 2 ^ (b + 1) ∧ w'.n = Probe.load 0 w'.keys ∧
        w'.n * 2 < w'.cap ∧ ∀ k, k ≠ 0 → w.Has k → w'.Has k := by
  let c := if w.cap = 0 then 64 else w.cap * 2
  have hc : ∃ b, c = 2 ^ (b + 1) := by
    by_cases h0 : w.cap = 0
    · exact ⟨5, if_pos h0⟩
    · obtain ⟨b, hb⟩ := h.cap.resolve_left fun hn => h0 (congrArg List.length hn)
      exact ⟨b + 1, by rw [Nat.pow_succ, ← hb]; exact if_neg h0⟩
  have hlt : w.cap < c := by
    by_cases h0 : w.cap = 0
    · exact lt_of_eq_of_lt h0 (by rw [show c = 64 from if_pos h0]; decide)
    · rw [show c = w.cap * 2 from if_neg h0]
      omega
  obtain ⟨b, hb⟩ := hc
  have hhalf := h.half
  let ks := w.keys.filter (· ≠ 0)
  have hlen : ks.length = w.n := by
    rw [h.count, Probe.load, List.countP_eq_length_filter]
  let start : FolderWantSet W := { w with keys := List.replicate c 0, n := 0 }
  have hcap : start.cap = c := List.length_replicate
  obtain ⟨w', hfold, hs⟩ := foldlM_stores (w := start) ks (hcap.trans hb) (load_replicate c).symm
    (by rw [hcap, hlen]; show 0 + w.n ≤ c; omega) fun k hk => by simpa using (List.mem_filter.mp hk).2
  have hgrown : w'.n ≤ w.n := by
    have hg := hs.grown
    rw [hlen] at hg
    exact le_of_le_of_eq hg (Nat.zero_add _)
  have hdef : w.wantGrow granted = if foldstateWantMax * 2 < c then some (w, false)
      else if !granted then some (w, false)
      else (ks.foldlM wantPut start).map fun w' => (w', true) := rfl
  rw [hdef, hfold]
  split
  · exact Or.inl rfl
  · split
    · exact Or.inl rfl
    · refine Or.inr ⟨w', b, rfl, hs.owner, hs.overflow, hs.cap.trans (hcap.trans hb), hs.count, ?_,
        fun k hk hh => hs.has k (List.mem_filter.mpr ⟨hh.mem hk, by simpa using hk⟩)⟩
      rw [hs.cap, hcap]
      omega

/-- **An addition to a set.** It ends; the key is wanted then, and all that was before. -/
theorem record_ok (h : w.Ok) (ho : w.owner ≠ none) (hk : key ≠ 0) (granted : Bool) :
    ∃ w', w.record key granted = some w' ∧ w'.Ok ∧ w'.owner = w.owner ∧ w'.Wanted key ∧
      ∀ k, k ≠ 0 → w.Wanted k → w'.Wanted k := by
  have hput : ∀ {v : FolderWantSet W} {b : Nat}, v.cap = 2 ^ (b + 1) → v.n = Probe.load 0 v.keys →
      v.n * 2 < v.cap → v.owner = w.owner → v.overflow = w.overflow →
      (∀ k, k ≠ 0 → w.Has k → v.Has k) →
      ∃ w', v.wantPut key = some w' ∧ w'.Ok ∧ w'.owner = w.owner ∧ w'.Wanted key ∧
        ∀ k, k ≠ 0 → w.Wanted k → w'.Wanted k := by
    intro v b hb hn hhalf hvo hvov hkeep
    obtain ⟨w', hp, hs⟩ := wantPut_stores hb hn (by omega) hk
    have hgrown := hs.grown
    rw [List.length_cons, List.length_nil] at hgrown
    have hcap := hs.cap
    -- the capacity is even, so there is room for one more
    have heven : w'.n * 2 ≤ w'.cap := by
      rw [hcap]
      rw [Nat.pow_succ] at hb
      omega
    refine ⟨w', hp, ⟨Or.inr ⟨b, hcap.trans hb⟩, hs.count, heven, fun hnone => ?_⟩, hs.owner.trans hvo,
      Or.inr (hs.has key List.mem_cons_self), fun k hk0 hw => ?_⟩
    · exact absurd (hvo.symm.trans (hs.owner.symm.trans hnone)) ho
    · rcases hw with hov | hh
      · exact Or.inl (hs.overflow.trans (hvov.trans hov))
      · exact Or.inr (hs.keeps k hk0 (hkeep k hk0 hh))
  rw [record]
  split
  · rename_i hov
    exact ⟨w, rfl, h, rfl, Or.inl hov, fun _ _ hw => hw⟩
  · split
    · rcases wantGrow_keeps h granted with hg | ⟨w₁, b, hg, ho₁, hov₁, hb, hn, hhalf, hkeep⟩
      · rw [hg]
        exact ⟨_, rfl, ⟨h.cap, h.count, h.half, h.free⟩, rfl, Or.inl rfl, fun _ _ _ => Or.inl rfl⟩
      · rw [hg]
        exact hput hb hn hhalf ho₁ hov₁ hkeep
    · rename_i hroom
      obtain ⟨b, hb⟩ := h.cap.resolve_left fun hn => hroom (by rw [cap, hn]; exact Nat.zero_le _)
      exact hput hb h.count (by omega) rfl rfl fun _ _ hh => hh

/-- A set in which the key is wanted. -/
theorem Ok.found (h : w.Ok) (hk : key ≠ 0) (hh : w.Has key) :
    0 < w.n ∧ w.cap ≠ 0 ∧ ∃ i, w.probe key = some i ∧ w.keys.getD i 0 = key := by
  have hne : w.keys ≠ [] := fun hn => by
    have hm := hh.mem hk
    rw [hn] at hm
    exact absurd hm List.not_mem_nil
  obtain ⟨b, hb⟩ := h.cap.resolve_left hne
  have hhalf := h.half
  have hpos : 0 < w.n := by
    rw [h.count]
    exact Probe.load_pos hk (hh.mem hk)
  refine ⟨hpos, by omega, ?_⟩
  exact hh.find (wrap_eq hb) (wrap_lt hb _) (Probe.mem_of_load (by rw [← h.count]; exact (by omega : w.n < w.cap)))

theorem Ok.probe_isSome (h : w.Ok) (hc : w.cap ≠ 0) (key : UInt32) : (w.probe key).isSome := by
  obtain ⟨b, hb⟩ := h.cap.resolve_left fun hn => hc (congrArg List.length hn)
  have hhalf := h.half
  exact FolderWantSet.probe_isSome hb (by rw [← h.count]; omega) key

theorem Ok.taken (h : w.Ok) (o : W) : (w.taken o).Ok := by
  rw [FolderWantSet.taken]
  cases ho : w.owner with
  | none =>
    have hk := h.free ho
    exact ⟨Or.inl hk, by rw [hk]; rfl, Nat.zero_le _, fun hn => absurd hn (by simp)⟩
  | some p => exact h

theorem free_ok : (free : FolderWantSet W).Ok :=
  ⟨Or.inl rfl, rfl, Nat.le_refl _, fun _ => rfl⟩

/-- The set as `foldstate_want_clear` leaves it. -/
def cleared (w : FolderWantSet W) : FolderWantSet W :=
  { w with keys := List.replicate w.cap 0, n := 0, overflow := false }

theorem Ok.cleared (h : w.Ok) : w.cleared.Ok := by
  have hcap : w.cleared.cap = w.cap := List.length_replicate
  refine ⟨?_, (load_replicate _).symm, Nat.zero_le _, fun ho => ?_⟩
  · rcases h.cap with hn | ⟨b, hb⟩
    · exact Or.inl (by rw [FolderWantSet.cleared, FolderWantSet.cap, hn]; rfl)
    · exact Or.inr ⟨b, hcap.trans hb⟩
  · rw [FolderWantSet.cleared, FolderWantSet.cap, h.free ho]
    rfl

end FolderWantSet

/-! ## The sets of a folder -/

open FolderWantSet

section Sets
variable {W : Type*}

structure FolderWants (W : Type*) where
  sets : List (FolderWantSet W)
  size : sets.length = foldstateMaxClaims

inductive Op (W : Type*) where
  /-- `granted`: there is memory, should the table have to grow. -/
  | add (owner : W) (contentHash : Hash) (size : Int) (granted : Bool)
  | clear (owner : W)
  | release (owner : W)
  deriving DecidableEq

namespace FolderWants

def init : FolderWants W := ⟨List.replicate foldstateMaxClaims .free, rfl⟩

/-- The loop of `foldstate_want_any`. -/
def anyOf (key : UInt32) : List (FolderWantSet W) → Option Bool
  | [] => some false
  | w :: ws =>
    if w.owner.isNone then anyOf key ws
    else if w.overflow then some true
    else if w.cap = 0 then anyOf key ws
    else (w.probe key).bind fun i => if w.keys.getD i 0 = key then some true else anyOf key ws

/-- `foldstate_want_any` -/
def wantAny (s : FolderWants W) (contentHash : Hash) (size : Int) : Option Bool :=
  anyOf (wantKey contentHash size) s.sets

/-- `foldstate_want_idle` -/
def wantIdle (s : FolderWants W) : Bool :=
  !s.sets.any fun w => w.owner.isSome && (decide (0 < w.n) || w.overflow)

variable [DecidableEq W]

/-- `want_set`: the owner's slot, or the first free one. -/
def wantSet (s : FolderWants W) (owner : W) : Option Nat :=
  (s.sets.findIdx? fun w => w.owner = some owner).or (s.sets.findIdx? fun w => w.owner.isNone)

/-- `foldstate_want_add`; nothing is recorded without a slot. -/
def wantAdd (s : FolderWants W) (owner : W) (contentHash : Hash) (size : Int) (granted : Bool) :
    Option (FolderWants W) :=
  match s.wantSet owner with
  | none => some s
  | some i =>
    (((s.sets.getD i .free).taken owner).record (wantKey contentHash size) granted).map fun w =>
      ⟨s.sets.set i w, by rw [List.length_set, s.size]⟩

/-- `foldstate_want_clear` -/
def wantClear (s : FolderWants W) (owner : W) : FolderWants W :=
  ⟨s.sets.map fun w => if w.owner = some owner then w.cleared else w,
    by rw [List.length_map, s.size]⟩

/-- `foldstate_want_release` -/
def wantRelease (s : FolderWants W) (owner : W) : FolderWants W :=
  ⟨s.sets.map fun w => if w.owner = some owner then .free else w,
    by rw [List.length_map, s.size]⟩

/-- `none`: a search that does not end. -/
def step (s : FolderWants W) : Op W → Option (FolderWants W)
  | .add owner contentHash size granted => s.wantAdd owner contentHash size granted
  | .clear owner => some (s.wantClear owner)
  | .release owner => some (s.wantRelease owner)

/-! ## What is asked of the sets -/

def Inv (s : FolderWants W) : Prop := ∀ w ∈ s.sets, w.Ok

/-- The owner has the key in a set of its own. -/
def Recorded (s : FolderWants W) (owner : W) (key : UInt32) : Prop :=
  ∃ w ∈ s.sets, w.owner = some owner ∧ w.Wanted key

variable {s t : FolderWants W} {o : W} {key : UInt32} {ws : List (FolderWantSet W)}

omit [DecidableEq W] in
/-- Every search of the question ends. -/
theorem anyOf_isSome (hok : ∀ w ∈ ws, w.Ok) (key : UInt32) : (anyOf key ws).isSome := by
  induction ws with
  | nil => rfl
  | cons w ws ih =>
    have hrest := ih fun v hv => hok v (List.mem_cons_of_mem _ hv)
    rw [anyOf]
    split
    · exact hrest
    split
    · rfl
    split
    · exact hrest
    · rename_i hc
      obtain ⟨i, hi⟩ := Option.isSome_iff_exists.mp ((hok w List.mem_cons_self).probe_isSome hc key)
      rw [hi, Option.bind_some]
      split
      · rfl
      · exact hrest

omit [DecidableEq W] in
/-- **The answer.** What an owner has recorded is wanted. -/
theorem anyOf_eq_true (hok : ∀ w ∈ ws, w.Ok) (hk : key ≠ 0)
    (h : ∃ w ∈ ws, w.owner = some o ∧ w.Wanted key) : anyOf key ws = some true := by
  induction ws with
  | nil =>
    obtain ⟨w, hw, -⟩ := h
    exact absurd hw List.not_mem_nil
  | cons w ws ih =>
    have hokw := hok w List.mem_cons_self
    have hrest := ih fun v hv => hok v (List.mem_cons_of_mem _ hv)
    obtain ⟨v, hv, ho, hwant⟩ := h
    rw [anyOf]
    rcases List.mem_cons.mp hv with rfl | hv
    · rw [if_neg (by simp [ho])]
      split
      · rfl
      · rename_i hov
        obtain ⟨-, hc, i, hi, hget⟩ := hokw.found hk (hwant.resolve_left hov)
        rw [if_neg hc, hi, Option.bind_some, if_pos hget]
    · have htail := hrest ⟨v, hv, ho, hwant⟩
      split
      · exact htail
      split
      · rfl
      split
      · exact htail
      · rename_i hc
        obtain ⟨i, hi⟩ := Option.isSome_iff_exists.mp (hokw.probe_isSome hc key)
        rw [hi, Option.bind_some]
        split
        · rfl
        · exact htail

omit [DecidableEq W] in
theorem wantIdle_eq_false (hinv : s.Inv) (hk : key ≠ 0) (h : s.Recorded o key) :
    s.wantIdle = false := by
  obtain ⟨w, hw, ho, hwant⟩ := h
  rw [wantIdle, Bool.not_eq_false', List.any_eq_true]
  refine ⟨w, hw, ?_⟩
  rcases hwant with hov | hh
  · simp [ho, hov]
  · simp [ho, ((hinv w hw).found hk hh).1]

/-! ## What a call keeps -/

/-- The slot that `want_set` finds. -/
theorem wantSet_spec {i : Nat} (h : s.wantSet o = some i) :
    ∃ w, s.sets[i]? = some w ∧ (w.owner = some o ∨ w.owner = none) := by
  rw [wantSet, Option.or_eq_some_iff] at h
  rcases h with h | ⟨-, h⟩
  · obtain ⟨hlt, hw, -⟩ := List.findIdx?_eq_some_iff_getElem.mp h
    exact ⟨_, List.getElem?_eq_getElem hlt, Or.inl (by simpa using hw)⟩
  · obtain ⟨hlt, hw, -⟩ := List.findIdx?_eq_some_iff_getElem.mp h
    exact ⟨_, List.getElem?_eq_getElem hlt, Or.inr (by simpa using hw)⟩

/-- **Addition.** It ends; where there was a slot the key is recorded, and what any owner had
recorded still is. -/
theorem wantAdd_ok (hinv : s.Inv) (o : W) (contentHash : Hash) (size : Int) (granted : Bool) :
    ∃ t, s.wantAdd o contentHash size granted = some t ∧ t.Inv ∧
      ((∃ w ∈ s.sets, w.owner = some o ∨ w.owner = none) →
        t.Recorded o (wantKey contentHash size)) ∧
      ∀ p k, k ≠ 0 → s.Recorded p k → t.Recorded p k := by
  rw [wantAdd]
  cases hs : s.wantSet o with
  | none =>
    refine ⟨s, rfl, hinv, fun ⟨w, hw, ho⟩ => ?_, fun _ _ _ h => h⟩
    rw [wantSet, Option.or_eq_none_iff, List.findIdx?_eq_none_iff, List.findIdx?_eq_none_iff] at hs
    rcases ho with ho | ho
    · exact absurd ho (by simpa using hs.1 w hw)
    · exact absurd (hs.2 w hw) (by simp [ho])
  | some i =>
    obtain ⟨w, hw, how⟩ := wantSet_spec hs
    have hmem : w ∈ s.sets := List.mem_of_getElem? hw
    have hilt : i < s.sets.length := (List.getElem?_eq_some_iff.mp hw).1
    have htaken : (w.taken o).owner = some o := by
      rcases how with ho | ho <;> simp [taken, ho]
    obtain ⟨w', hr, hok, howner, hwant, hkeep⟩ := record_ok ((hinv w hmem).taken o)
      (by rw [htaken]; simp) (wantKey_ne_zero contentHash size) granted
    dsimp only
    rw [List.getD_eq_getElem?_getD, hw, Option.getD_some, hr]
    have hself : w' ∈ s.sets.set i w' := List.mem_set hilt w'
    refine ⟨_, rfl, fun v hv => ?_, fun _ => ⟨w', hself, howner.trans htaken, hwant⟩, ?_⟩
    · rcases List.mem_or_eq_of_mem_set hv with hv | rfl
      · exact hinv v hv
      · exact hok
    · rintro p k hk ⟨v, hv, hvo, hvk⟩
      obtain ⟨j, hj⟩ := List.mem_iff_getElem?.mp hv
      by_cases hij : i = j
      · -- the set that changed: it was the owner's before
        subst hij
        obtain rfl := Option.some.inj (hw ▸ hj : some w = some v)
        obtain rfl : o = p := by
          rcases how with ho | ho
          · exact Option.some.inj (ho.symm.trans hvo)
          · exact absurd (ho.symm.trans hvo) (by simp)
        have hsame : w.taken o = w := by rw [taken, hvo]; rfl
        exact ⟨w', hself, howner.trans htaken, hkeep k hk (hsame.symm ▸ hvk)⟩
      · exact ⟨v, List.mem_of_getElem? ((List.getElem?_set_ne hij).trans hj), hvo, hvk⟩

/-- **Step.** Every call ends, and no set goes wrong. -/
theorem step_ok (hinv : s.Inv) (op : Op W) : ∃ t, s.step op = some t ∧ t.Inv := by
  cases op with
  | add o contentHash size granted =>
    obtain ⟨t, ht, hok, -⟩ := wantAdd_ok hinv o contentHash size granted
    exact ⟨t, ht, hok⟩
  | clear o =>
    refine ⟨_, rfl, fun v hv => ?_⟩
    obtain ⟨w, hw, rfl⟩ := List.mem_map.mp hv
    split
    · exact (hinv w hw).cleared
    · exact hinv w hw
  | release o =>
    refine ⟨_, rfl, fun v hv => ?_⟩
    obtain ⟨w, hw, rfl⟩ := List.mem_map.mp hv
    split
    · exact free_ok
    · exact hinv w hw

omit [DecidableEq W] in
theorem inv_init : (init : FolderWants W).Inv := fun w hw => by
  rw [List.eq_of_mem_replicate hw]
  exact free_ok

theorem run_ok (ops : List (Op W)) (hinv : s.Inv) :
    ∃ t, Machine.run step s ops = some t ∧ t.Inv :=
  Machine.run_total (fun _ op hs => step_ok hs op) ops hinv

/-- The two calls that forget. -/
def Op.Forgets (o : W) (op : Op W) : Prop := op = .clear o ∨ op = .release o

/-- A record outlives every call that is not the owner's clear or release. -/
theorem recorded_step (hinv : s.Inv) {op : Op W} (ht : s.step op = some t) (hf : ¬Op.Forgets o op)
    (hk : key ≠ 0) (h : s.Recorded o key) : t.Recorded o key := by
  cases op with
  | add p contentHash size granted =>
    obtain ⟨t', ht', -, -, hkeep⟩ := wantAdd_ok hinv p contentHash size granted
    obtain rfl := Option.some.inj (ht'.symm.trans ht)
    exact hkeep o key hk h
  | clear p =>
    obtain ⟨w, hw, ho, hwant⟩ := h
    have hne : w.owner ≠ some p := fun hp =>
      hf (Or.inl (congrArg Op.clear (Option.some.inj (hp.symm.trans ho))))
    rw [← Option.some.inj ht]
    exact ⟨w, List.mem_map.mpr ⟨w, hw, if_neg hne⟩, ho, hwant⟩
  | release p =>
    obtain ⟨w, hw, ho, hwant⟩ := h
    have hne : w.owner ≠ some p := fun hp =>
      hf (Or.inr (congrArg Op.release (Option.some.inj (hp.symm.trans ho))))
    rw [← Option.some.inj ht]
    exact ⟨w, List.mem_map.mpr ⟨w, hw, if_neg hne⟩, ho, hwant⟩

theorem recorded_run {ops : List (Op W)} (hinv : s.Inv) (hr : Machine.run step s ops = some t)
    (hf : ∀ op ∈ ops, ¬Op.Forgets o op) (hk : key ≠ 0) (h : s.Recorded o key) :
    t.Recorded o key := by
  induction ops generalizing s with
  | nil => exact Option.some.inj hr ▸ h
  | cons op ops ih =>
    obtain ⟨u, hu, hr⟩ := Machine.run_cons_eq_some.mp hr
    obtain ⟨u', hu', hinv'⟩ := step_ok hinv op
    obtain rfl := Option.some.inj (hu'.symm.trans hu)
    exact ih hinv' hr (fun p hp => hf p (List.mem_cons_of_mem _ hp))
      (recorded_step hinv hu (hf op List.mem_cons_self) hk h)

/-- The call adds for an owner that has a slot, or there is a free one. -/
def HasSlot (s : FolderWants W) : Op W → Prop
  | .add o _ _ _ => ∃ w ∈ s.sets, w.owner = some o ∨ w.owner = none
  | _ => True

instance (s : FolderWants W) (op : Op W) : Decidable (s.HasSlot op) := by
  cases op <;> unfold HasSlot <;> infer_instance

/-- The owner has added the content, and neither cleared nor released since. -/
def Added (ops : List (Op W)) (o : W) (contentHash : Hash) (size : Int) : Prop :=
  ∃ before granted after, ops = before ++ .add o contentHash size granted :: after ∧
    ∀ op ∈ after, ¬Op.Forgets o op

/-! ## The main result -/

/-- **Wanted content is kept.** No call and no question searches for ever, whatever the owners do.
And in a run in which every owner that adds has a slot or finds one free, what was added and not
forgotten is wanted, and the folder is not idle. -/
theorem wanted_kept :
    (∀ ops : List (Op W), ∃ s, Machine.run step init ops = some s ∧
      ∀ contentHash size, (s.wantAny contentHash size).isSome) ∧
    ∀ (ops : List (Op W)) (s : FolderWants W), Machine.run step init ops = some s →
      Machine.Along step HasSlot init ops →
      ∀ o contentHash size, Added ops o contentHash size →
        s.wantAny contentHash size = some true ∧ s.wantIdle = false := by
  constructor
  · intro ops
    obtain ⟨s, hr, hinv⟩ := run_ok ops (inv_init (W := W))
    exact ⟨s, hr, fun contentHash size => anyOf_isSome hinv _⟩
  · rintro ops s hr hroom o contentHash size ⟨before, granted, after, rfl, hafter⟩
    obtain ⟨t, ht, hrest⟩ := Machine.run_append_eq_some.mp hr
    have hroom' := (Machine.along_append hroom ht).1
    obtain ⟨u, hu, hrest⟩ := Machine.run_cons_eq_some.mp hrest
    obtain ⟨_, ht', hinvt⟩ := run_ok before (inv_init (W := W))
    obtain rfl := Option.some.inj (ht'.symm.trans ht)
    obtain ⟨_, hu', hinvu, hrec, -⟩ := wantAdd_ok hinvt o contentHash size granted
    obtain rfl := Option.some.inj (hu'.symm.trans hu)
    obtain ⟨_, hs', hinvs⟩ := run_ok after hinvu
    obtain rfl := Option.some.inj (hs'.symm.trans hrest)
    have hk := wantKey_ne_zero contentHash size
    have h := recorded_run hinvu hrest hafter hk (hrec hroom')
    exact ⟨anyOf_eq_true hinvs hk h, wantIdle_eq_false hinvs hk h⟩

end FolderWants
end Sets

open FolderWants

/-- Sixteen workers have come and gone idle, each with its slot; then one more adds. -/
def sixteenIdle : List (Op Nat) :=
  (List.range 16).flatMap (fun o => [.add o (sampleHash 1) 1 true, .clear o]) ++
    [.add 16 (sampleHash 2) 1 true]

/-- The addition is lost: the content is not wanted, and the folder idle. -/
theorem seventeenth_forgotten :
    Added sixteenIdle 16 (sampleHash 2) 1 ∧
      ∃ s, Machine.run step init sixteenIdle = some s ∧
        s.wantAny (sampleHash 2) 1 = some false ∧ s.wantIdle = true := by
  have hrun : (Machine.run step init sixteenIdle).map
      (fun s => (s.wantAny (sampleHash 2) 1, s.wantIdle)) = some (some false, true) := by
    decide +kernel
  obtain ⟨s, hs, ha⟩ := Option.map_eq_some_iff.mp hrun
  exact ⟨⟨_, true, [], rfl, fun op hop => absurd hop List.not_mem_nil⟩, s, hs, Prod.mk.inj ha⟩

theorem kept_past_others :
    ∃ s, Machine.run step init [.add 0 (sampleHash 1) 1 true, .clear 1, .release 2] = some s ∧
      s.wantAny (sampleHash 1) 1 = some true ∧ s.wantIdle = false := by
  obtain ⟨s, hs, -⟩ := wanted_kept.1 [.add 0 (sampleHash 1) 1 true, .clear 1, .release 2]
  have hroom : Machine.Along step HasSlot init
      [.add 0 (sampleHash 1) 1 true, .clear 1, .release 2] :=
    ⟨by decide, fun _ _ => ⟨trivial, fun _ _ => ⟨trivial, fun _ _ => trivial⟩⟩⟩
  refine ⟨s, hs, wanted_kept.2 _ s hs hroom 0 (sampleHash 1) 1 ⟨[], true, _, rfl, fun op hop => ?_⟩⟩
  simp only [List.mem_cons, List.not_mem_nil, or_false] at hop
  rcases hop with rfl | rfl <;> simp [Op.Forgets]

end Amisync.Wants
