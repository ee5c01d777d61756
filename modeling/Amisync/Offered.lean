import Amisync.ConfigFile
import Amisync.Folders
import Amisync.Lib.Sweep
import Amisync.Messages

/-!
# Folders that are offered (`offered.c`, `handle_cluster_config`)

A ClusterConfig names every folder that a peer shares, also those that are not configured here.
These are kept in a table of eight slots, for all peers together. The tasks of the peers write to
it side by side, one call at a time.

* `offeredBegin`, `offeredNote`, `offeredEnd`: the calls.
* `Event`, `exec`: any of them, in any order.
* `moves`, `marks_run`: the table as a mark and sweep.
* `offers_follow`: what is in the table for a device after its message.
* `offers_acceptable`: what is offered can be accepted.
-/

namespace Amisync.Offered

open ConfigFile Ctype

def offeredMax : Nat := 8

structure OfferedFolder where
  id : CString 63
  label : CString 63
  deviceName : CString 63
  deviceId : CString 63
  deriving DecidableEq

/-- An entry of `g_offers`, and its mark in `g_stale`. -/
structure Slot where
  offer : OfferedFolder
  stale : Bool
  deriving DecidableEq

abbrev Table := Fin offeredMax → Slot

def Slot.live (s : Slot) : Bool := decide (s.offer.id.bytes ≠ [])

/-- The slot has this offer of this device. -/
def Slot.holds (s : Slot) (d id : CString 63) : Bool :=
  s.live && decide (s.offer.id = id) && decide (s.offer.deviceId = d)

def noOffers : Table := fun _ => ⟨⟨.empty _, .empty _, .empty _, .empty _⟩, false⟩

def slotOf (t : Table) (d id : CString 63) : Option (Fin offeredMax) :=
  (List.finRange offeredMax).find? fun i => (t i).holds d id

def freeSlot (t : Table) : Option (Fin offeredMax) := (List.finRange offeredMax).find? fun i => !(t i).live

/-! ## The calls -/

def offeredBegin (d : CString 63) (t : Table) : Table :=
  if d.bytes = [] then t
  else fun i => if (t i).live && decide ((t i).offer.deviceId = d) then { t i with stale := true } else t i

def offeredNote (d name id label : CString 63) (t : Table) : Table :=
  if id.bytes = [] ∨ d.bytes = [] then t
  else if !textFieldSafe id.bytes || !textFieldSafe label.bytes then t
  else match slotOf t d id with
    | some i => Function.update t i ⟨{ (t i).offer with label := label, deviceName := name }, false⟩
    | none => match freeSlot t with
      | none => t
      | some i => Function.update t i ⟨⟨id, label, name, d⟩, false⟩

/-- The slot stays where it is. -/
def offeredEnd (d : CString 63) (t : Table) : Table :=
  if d.bytes = [] then t
  else fun i =>
    if (t i).live && (t i).stale && decide ((t i).offer.deviceId = d) then
      ⟨{ (t i).offer with id := .empty _ }, false⟩
    else t i

inductive Event
  | begin (d : CString 63)
  | note (d name id label : CString 63)
  | done (d : CString 63)
  deriving DecidableEq

def exec (t : Table) : Event → Table
  | .begin d => offeredBegin d t
  | .note d name id label => offeredNote d name id label t
  | .done d => offeredEnd d t

def run (t : Table) (es : List Event) : Table := es.foldl exec t

def Event.device : Event → CString 63
  | .begin d | .note d _ _ _ | .done d => d

/-- The folders of a message that are not configured. The configuration may change from one to the next. -/
def noted (cfg : Nat → Config) (d name : CString 63) (cc : Messages.ClusterConfig) : List Event :=
  cc.folders.zipIdx.filterMap fun f =>
    if (syncFolderIndex (cfg f.2) f.1.id).isNone then some (.note d name f.1.id f.1.label) else none

/-- The calls from the beginning of a message of the device to its end. -/
def bracket (d : CString 63) (mid : List Event) : List Event := .begin d :: mid ++ [.done d]

/-- What `handle_cluster_config` calls. -/
def messageEvents (cfg : Nat → Config) (d name : CString 63) (cc : Messages.ClusterConfig) : List Event :=
  bracket d (noted cfg d name cc)

/-! ## Slots -/

/-- What `offered_note` takes. -/
def Taken (d id label : CString 63) : Prop :=
  id.bytes ≠ [] ∧ d.bytes ≠ [] ∧ textFieldSafe id.bytes = true ∧ textFieldSafe label.bytes = true

instance (d id label : CString 63) : Decidable (Taken d id label) := inferInstanceAs (Decidable (_ ∧ _))

/-- No offer is there twice. -/
def Distinct (t : Table) : Prop := ∀ i j d id, (t i).holds d id = true → (t j).holds d id = true → i = j

section Slots
variable {t : Table} {d id name label : CString 63} {i : Fin offeredMax}

theorem holds_iff {s : Slot} :
    s.holds d id = true ↔ s.live = true ∧ s.offer.id = id ∧ s.offer.deviceId = d := by
  simp [Slot.holds, and_assoc]

theorem holds_of_slotOf (h : slotOf t d id = some i) : (t i).holds d id = true :=
  List.find?_some (p := fun i => (t i).holds d id) h

theorem slotOf_some (h : Distinct t) : slotOf t d id = some i ↔ (t i).holds d id = true := by
  constructor
  · exact holds_of_slotOf
  · intro hi
    cases hfind : slotOf t d id with
    | none => exact absurd hi (by simpa using List.find?_eq_none.mp hfind i (List.mem_finRange i))
    | some j => rw [h j i d id (holds_of_slotOf hfind) hi]

theorem slotOf_none : slotOf t d id = none ↔ ∀ i, (t i).holds d id = false := by
  simp [slotOf]

theorem slotOf_congr {u : Table} (h : ∀ i, (u i).holds d id = (t i).holds d id) : slotOf u d id = slotOf t d id := by
  unfold slotOf
  simp only [h]

/-- An offer that is taken goes to its slot, or to one that is free. -/
theorem offeredNote_eq (h : Distinct t) (htaken : Taken d id label) : offeredNote d name id label t =
    match (slotOf t d id).or (freeSlot t) with
    | none => t
    | some i => Function.update t i ⟨⟨id, label, name, d⟩, false⟩ := by
  obtain ⟨hid, hd, hsafe, hlabel⟩ := htaken
  unfold offeredNote
  rw [if_neg (by simp [hid, hd]), if_neg (by simp [hsafe, hlabel])]
  cases hslot : slotOf t d id with
  | some i =>
    obtain ⟨-, hkey, hdevice⟩ := holds_iff.mp ((slotOf_some h).mp hslot)
    simp only [Option.some_or, hkey, hdevice]
  | none => simp only [Option.none_or]

theorem offeredNote_refused (htaken : ¬ Taken d id label) : offeredNote d name id label t = t := by
  unfold offeredNote
  split
  · rfl
  · rename_i hempty
    split
    · rfl
    · rename_i hunsafe
      rw [not_or] at hempty
      simp only [Bool.or_eq_true, not_or, Bool.not_eq_true, Bool.not_eq_false'] at hunsafe
      exact absurd ⟨hempty.1, hempty.2, hunsafe.1, hunsafe.2⟩ htaken

/-- The slot that a new entry is written to was its own, or free. -/
theorem target_facts (h : Distinct t) (hi : (slotOf t d id).or (freeSlot t) = some i) :
    (t i).holds d id = true ∨ slotOf t d id = none ∧ (t i).live = false := by
  cases hslot : slotOf t d id with
  | some j =>
    rw [hslot, Option.some_or, Option.some.injEq] at hi
    exact Or.inl (hi ▸ (slotOf_some h).mp hslot)
  | none =>
    rw [hslot, Option.none_or] at hi
    exact Or.inr ⟨rfl, by simpa using List.find?_some (p := fun i => !(t i).live) hi⟩

/-- Who holds what, once an entry is written. -/
theorem holds_written (h : Distinct t) (hid : id.bytes ≠ []) (hi : (slotOf t d id).or (freeSlot t) = some i)
    (d' id' : CString 63) (j : Fin offeredMax) :
    (Function.update t i ⟨⟨id, label, name, d⟩, false⟩ j).holds d' id' = true ↔
      j = i ∧ d' = d ∧ id' = id ∨ (t j).holds d' id' = true := by
  have htarget := target_facts h hi
  by_cases hj : j = i
  · subst hj
    rw [Function.update_self]
    have hnew : (Slot.mk ⟨id, label, name, d⟩ false).holds d' id' = true ↔ d' = d ∧ id' = id := by
      rw [holds_iff]
      constructor
      · rintro ⟨-, rfl, rfl⟩
        exact ⟨rfl, rfl⟩
      · rintro ⟨rfl, rfl⟩
        exact ⟨by simpa [Slot.live] using hid, rfl, rfl⟩
    rw [hnew]
    refine ⟨fun h => Or.inl ⟨rfl, h⟩, fun hor => ?_⟩
    rcases hor with ⟨-, h⟩ | hold
    · exact h
    · rcases htarget with hown | ⟨-, hdead⟩
      · obtain ⟨-, hkey, hdevice⟩ := holds_iff.mp hown
        obtain ⟨-, hkey', hdevice'⟩ := holds_iff.mp hold
        exact ⟨hdevice'.symm.trans hdevice, hkey'.symm.trans hkey⟩
      · exact absurd (holds_iff.mp hold).1 (by simp [hdead])
  · rw [Function.update_of_ne hj]
    simp [hj]

/-! ## One call -/

theorem holds_begin (d' : CString 63) (j : Fin offeredMax) :
    (offeredBegin d t j).holds d' id = (t j).holds d' id := by
  unfold offeredBegin
  split
  · rfl
  · dsimp only
    split <;> rfl

theorem holds_end (hd : d.bytes ≠ []) (d' : CString 63) (j : Fin offeredMax) :
    (offeredEnd d t j).holds d' id = ((t j).holds d' id && !((t j).stale && decide (d' = d))) := by
  unfold offeredEnd
  rw [if_neg hd]
  dsimp only
  split
  · rename_i hswept
    simp only [Bool.and_eq_true, decide_eq_true_eq] at hswept
    have hdead : (Slot.mk { (t j).offer with id := .empty _ } false).holds d' id = false := by
      simp [Slot.holds, Slot.live, CString.empty]
    rw [hdead]
    cases hholds : (t j).holds d' id with
    | false => rfl
    | true => simp [hswept.1.2, ← (holds_iff.mp hholds).2.2, hswept.2]
  · rename_i hkept
    cases hholds : (t j).holds d' id with
    | false => rfl
    | true =>
      obtain ⟨hlive, -, hdevice⟩ := holds_iff.mp hholds
      have hfresh : ((t j).stale && decide (d' = d)) = false := by
        rw [Bool.eq_false_iff]
        intro hboth
        rw [hlive, hdevice, Bool.true_and] at hkept
        exact hkept hboth
      rw [hfresh]
      rfl

/-- A note is lost, or it is written. -/
theorem offeredNote_cases (h : Distinct t) (d name id label : CString 63) :
    offeredNote d name id label t = t ∧ (¬ Taken d id label ∨ slotOf t d id = none ∧ freeSlot t = none) ∨
      Taken d id label ∧ ∃ i, (slotOf t d id).or (freeSlot t) = some i ∧
        offeredNote d name id label t = Function.update t i ⟨⟨id, label, name, d⟩, false⟩ := by
  by_cases htaken : Taken d id label
  · have heq : offeredNote d name id label t = _ := offeredNote_eq h htaken
    cases hslot : (slotOf t d id).or (freeSlot t) with
    | none =>
      rw [hslot] at heq
      exact Or.inl ⟨heq, Or.inr (Option.or_eq_none_iff.mp hslot)⟩
    | some i =>
      rw [hslot] at heq
      exact Or.inr ⟨htaken, i, rfl, heq⟩
  · exact Or.inl ⟨offeredNote_refused htaken, Or.inl htaken⟩

theorem distinct_exec (h : Distinct t) (e : Event) : Distinct (exec t e) := by
  intro i j d' id' hi hj
  cases e with
  | begin d =>
    rw [exec, holds_begin] at hi hj
    exact h i j d' id' hi hj
  | done d =>
    by_cases hd : d.bytes = []
    · rw [exec, offeredEnd, if_pos hd] at hi hj
      exact h i j d' id' hi hj
    · rw [exec, holds_end hd, Bool.and_eq_true] at hi hj
      exact h i j d' id' hi.1 hj.1
  | note d name id label =>
    rcases offeredNote_cases h d name id label with ⟨hsame, -⟩ | ⟨htaken, k, hk, hnew⟩
    · rw [exec, hsame] at hi hj
      exact h i j d' id' hi hj
    · rw [exec, hnew, holds_written h htaken.1 hk] at hi hj
      have hfree : ∀ l, (t l).holds d id = true → l = k := by
        intro l hl
        rcases target_facts h hk with hown | ⟨hnone, -⟩
        · exact h l k d id hl hown
        · exact absurd hl (by simp [slotOf_none.mp hnone l])
      rcases hi with ⟨rfl, rfl, rfl⟩ | hi
      · rcases hj with ⟨rfl, -⟩ | hj
        · rfl
        · exact (hfree j hj).symm
      · rcases hj with ⟨rfl, rfl, rfl⟩ | hj
        · exact hfree i hi
        · exact h i j d' id' hi hj

/-- An offer stays in its slot until its device ends a message. -/
theorem slotOf_exec (h : Distinct t) (hslot : slotOf t d id = some i) {e : Event} (he : e ≠ .done d) :
    slotOf (exec t e) d id = some i := by
  have hi := holds_of_slotOf hslot
  rw [slotOf_some (distinct_exec h e)]
  cases e with
  | begin d' => rwa [exec, holds_begin]
  | done d' =>
    have hne : d ≠ d' := fun heq => he (heq ▸ rfl)
    by_cases hd' : d'.bytes = []
    · rwa [exec, offeredEnd, if_pos hd']
    · rw [exec, holds_end hd', hi]
      simp [hne]
  | note d' name id' label =>
    rcases offeredNote_cases h d' name id' label with ⟨hsame, -⟩ | ⟨htaken, k, hk, hnew⟩
    · rwa [exec, hsame]
    · rw [exec, hnew, holds_written h htaken.1 hk]
      exact Or.inr hi

/-- The name and the label, where the call notes this offer. -/
def noteOf (d id : CString 63) : Event → Option (CString 63 × CString 63)
  | .note d' name id' label => if d' = d ∧ id' = id ∧ Taken d id label then some (name, label) else none
  | _ => none

/-- What is in the table was noted last, or was there. -/
theorem entry_exec (h : Distinct t) {e : Event} (hslot : slotOf (exec t e) d id = some i) :
    noteOf d id e = some ((exec t e i).offer.deviceName, (exec t e i).offer.label) ∨
      noteOf d id e = none ∧ slotOf t d id = some i ∧ (exec t e i).offer = (t i).offer := by
  have hi := (slotOf_some (distinct_exec h e)).mp hslot
  cases e with
  | begin d' =>
    rw [exec, holds_begin] at hi
    refine Or.inr ⟨rfl, (slotOf_some h).mpr hi, ?_⟩
    rw [exec, offeredBegin]
    split
    · rfl
    · dsimp only
      split <;> rfl
  | done d' =>
    by_cases hd' : d'.bytes = []
    · rw [exec, offeredEnd, if_pos hd'] at hi ⊢
      exact Or.inr ⟨rfl, (slotOf_some h).mpr hi, rfl⟩
    · have hboth := hi
      rw [exec, holds_end hd', Bool.and_eq_true, Bool.not_eq_true'] at hboth
      obtain ⟨hold, hkept⟩ := hboth
      refine Or.inr ⟨rfl, (slotOf_some h).mpr hold, ?_⟩
      rw [exec, offeredEnd, if_neg hd', if_neg]
      intro hswept
      simp only [Bool.and_eq_true, decide_eq_true_eq] at hswept
      rw [hswept.1.2, ← (holds_iff.mp hold).2.2, hswept.2] at hkept
      simp at hkept
  | note d' name id' label =>
    rcases offeredNote_cases h d' name id' label with ⟨hsame, hlost⟩ | ⟨htaken, k, hk, hnew⟩
    · have hold : (t i).holds d id = true := by rwa [exec, hsame] at hi
      refine Or.inr ⟨?_, (slotOf_some h).mpr hold, by rw [exec, hsame]⟩
      refine if_neg ?_
      rintro ⟨rfl, rfl, htaken⟩
      rcases hlost with hlost | ⟨hnone, -⟩
      · exact hlost htaken
      · exact absurd hold (by simp [slotOf_none.mp hnone i])
    · rw [exec, hnew] at hi ⊢
      by_cases hkey : d' = d ∧ id' = id
      · obtain ⟨rfl, rfl⟩ := hkey
        have hik : i = k := by
          rcases (holds_written h htaken.1 hk d' id' i).mp hi with ⟨rfl, -⟩ | hold
          · rfl
          · rcases target_facts h hk with hown | ⟨hnone, -⟩
            · exact h i k d' id' hold hown
            · exact absurd hold (by simp [slotOf_none.mp hnone i])
        left
        rw [hik, Function.update_self]
        exact if_pos ⟨rfl, rfl, htaken⟩
      · right
        have hold : (t i).holds d id = true := by
          rcases (holds_written h htaken.1 hk d id i).mp hi with ⟨-, rfl, rfl⟩ | hold
          · exact absurd ⟨rfl, rfl⟩ hkey
          · exact hold
        have hik : i ≠ k := by
          rintro rfl
          rw [Function.update_self] at hi
          obtain ⟨-, hid, hdevice⟩ := holds_iff.mp hi
          exact hkey ⟨hdevice, hid⟩
        refine ⟨if_neg fun hall => hkey ⟨hall.1, hall.2.1⟩, (slotOf_some h).mpr hold, ?_⟩
        rw [Function.update_of_ne hik]

end Slots

/-! ## As a mark and sweep -/

section Marks
variable {t : Table} {d id : CString 63}

/-- An offer by its device and its id. -/
abbrev Key := CString 63 × CString 63

def marksOf (t : Table) : Sweep.Marks Key := fun k => (slotOf t k.1 k.2).map fun i => (t i).stale

def ofDevice (d : CString 63) (k : Key) : Bool := decide (k.1 = d)

/-- What a call is as a move. -/
def toMoves (t : Table) : Event → List (Sweep.Move Key)
  | .begin d => if d.bytes = [] then [] else [.mark (ofDevice d)]
  | .note d _ id label => if Taken d id label then [.found (d, id) (freeSlot t).isSome] else []
  | .done d => if d.bytes = [] then [] else [.sweep (ofDevice d)]

def moves (t : Table) : List Event → List (Sweep.Move Key)
  | [] => []
  | e :: es => toMoves t e ++ moves (exec t e) es

theorem marks_begin (hd : d.bytes ≠ []) :
    marksOf (offeredBegin d t) = Sweep.exec (marksOf t) (.mark (ofDevice d)) := by
  funext k
  have hslot : slotOf (offeredBegin d t) k.1 k.2 = slotOf t k.1 k.2 := slotOf_congr fun i => holds_begin k.1 i
  rw [marksOf, hslot]
  show _ = if ofDevice d k then (marksOf t k).map fun _ => true else marksOf t k
  rw [marksOf]
  cases hfind : slotOf t k.1 k.2 with
  | none => simp
  | some i =>
    obtain ⟨hlive, -, hdevice⟩ := holds_iff.mp (holds_of_slotOf hfind)
    by_cases hk : k.1 = d
    · simp [offeredBegin, hd, hlive, hdevice, ofDevice, hk]
    · simp [offeredBegin, hd, hlive, hdevice, ofDevice, hk]

theorem marks_done (h : Distinct t) (hd : d.bytes ≠ []) :
    marksOf (offeredEnd d t) = Sweep.exec (marksOf t) (.sweep (ofDevice d)) := by
  funext k
  rw [Sweep.exec_sweep]
  cases hfind : slotOf t k.1 k.2 with
  | none =>
    have hnone : slotOf (offeredEnd d t) k.1 k.2 = none := by
      rw [slotOf_none]
      intro i
      rw [holds_end hd, slotOf_none.mp hfind i]
      rfl
    simp [marksOf, hfind, hnone]
  | some i =>
    have hi := holds_of_slotOf hfind
    have hmarks : marksOf t k = some (t i).stale := by rw [marksOf, hfind]; rfl
    by_cases hswept : ofDevice d k = true ∧ marksOf t k = some true
    · have hk : k.1 = d := by simpa [ofDevice] using hswept.1
      have hstale : (t i).stale = true := by simpa [hmarks] using hswept.2
      have hnone : slotOf (offeredEnd d t) k.1 k.2 = none := by
        rw [slotOf_none]
        intro j
        rw [holds_end hd]
        cases hj : (t j).holds k.1 k.2 with
        | false => rfl
        | true => rw [h j i _ _ hj hi, hstale]; simp [hk]
      rw [if_pos hswept, marksOf, hnone]
      rfl
    · have hkept : ((t i).stale && decide (k.1 = d)) = false := by
        rw [Bool.eq_false_iff]
        intro hboth
        rw [Bool.and_eq_true] at hboth
        exact hswept ⟨hboth.2, by rw [hmarks, hboth.1]⟩
      have hafter : slotOf (offeredEnd d t) k.1 k.2 = some i := by
        have hdistinct : Distinct (offeredEnd d t) := distinct_exec h (.done d)
        rw [slotOf_some hdistinct, holds_end hd, hi, hkept]
        rfl
      have hsame : (offeredEnd d t i).stale = (t i).stale := by
        obtain ⟨-, -, hdevice⟩ := holds_iff.mp hi
        rw [offeredEnd, if_neg hd, if_neg]
        intro hall
        simp only [Bool.and_eq_true, decide_eq_true_eq] at hall
        rw [hall.1.2, ← hdevice, hall.2] at hkept
        simp at hkept
      rw [if_neg hswept, marksOf, hafter, hmarks, Option.map_some, hsame]

theorem marks_note (h : Distinct t) {name label : CString 63} (htaken : Taken d id label) :
    marksOf (offeredNote d name id label t) =
      Sweep.exec (marksOf t) (.found (d, id) (freeSlot t).isSome) := by
  have hpresent : marksOf t (d, id) = none ↔ slotOf t d id = none := by simp [marksOf]
  rw [Sweep.exec_found]
  rcases offeredNote_cases h d name id label with ⟨hsame, hlost⟩ | ⟨-, k, hk, hnew⟩
  · obtain ⟨hnone, hfull⟩ := hlost.resolve_left (not_not.mpr htaken)
    rw [hsame, if_pos ⟨hpresent.mpr hnone, by rw [hfull]; rfl⟩]
  · have hroom : ¬ (marksOf t (d, id) = none ∧ (freeSlot t).isSome = false) := by
      rintro ⟨hnone, hfull⟩
      rw [hpresent.mp hnone, Option.none_or] at hk
      rw [hk] at hfull
      exact absurd hfull (by simp)
    rw [if_neg hroom, hnew]
    have hdistinct := distinct_exec h (.note d name id label)
    rw [exec, hnew] at hdistinct
    funext l
    by_cases hl : l = (d, id)
    · subst hl
      have hslot : slotOf (Function.update t k ⟨⟨id, label, name, d⟩, false⟩) d id = some k := by
        rw [slotOf_some hdistinct, holds_written h htaken.1 hk]
        exact Or.inl ⟨rfl, rfl, rfl⟩
      rw [Function.update_self, marksOf, hslot, Option.map_some, Function.update_self]
    · rw [Function.update_of_ne hl]
      have hother : ∀ j, (Function.update t k ⟨⟨id, label, name, d⟩, false⟩ j).holds l.1 l.2 = true ↔
          (t j).holds l.1 l.2 = true := by
        intro j
        rw [holds_written h htaken.1 hk]
        refine or_iff_right ?_
        rintro ⟨-, hdevice, hid⟩
        exact hl (Prod.ext hdevice hid)
      have hslot : slotOf (Function.update t k ⟨⟨id, label, name, d⟩, false⟩) l.1 l.2 = slotOf t l.1 l.2 :=
        slotOf_congr fun j => Bool.eq_iff_iff.mpr (hother j)
      rw [marksOf, hslot, marksOf]
      cases hfind : slotOf t l.1 l.2 with
      | none => rfl
      | some j =>
        have hj := holds_of_slotOf hfind
        have hjk : j ≠ k := by
          rintro rfl
          have hnow := (hother j).mpr hj
          rw [Function.update_self] at hnow
          obtain ⟨-, hid, hdevice⟩ := holds_iff.mp hnow
          exact hl (Prod.ext hdevice.symm hid.symm)
        rw [Option.map_some, Option.map_some, Function.update_of_ne hjk]

/-- **Call.** -/
theorem marks_exec (h : Distinct t) (e : Event) : marksOf (exec t e) = Sweep.run (marksOf t) (toMoves t e) := by
  cases e with
  | begin d =>
    by_cases hd : d.bytes = []
    · simp [exec, offeredBegin, toMoves, hd, Sweep.run]
    · rw [exec, marks_begin hd, toMoves, if_neg hd]
      rfl
  | note d name id label =>
    by_cases htaken : Taken d id label
    · rw [exec, marks_note h htaken, toMoves, if_pos htaken]
      rfl
    · rw [exec, offeredNote_refused htaken, toMoves, if_neg htaken]
      rfl
  | done d =>
    by_cases hd : d.bytes = []
    · simp [exec, offeredEnd, toMoves, hd, Sweep.run]
    · rw [exec, marks_done h hd, toMoves, if_neg hd]
      rfl

theorem distinct_run (h : Distinct t) (es : List Event) : Distinct (run t es) := by
  induction es generalizing t with
  | nil => exact h
  | cons e es ih => exact ih (distinct_exec h e)

/-- **Run.** -/
theorem marks_run (h : Distinct t) (es : List Event) : marksOf (run t es) = Sweep.run (marksOf t) (moves t es) := by
  induction es generalizing t with
  | nil => rfl
  | cons e es ih =>
    rw [moves, Sweep.run_append, ← marks_exec h]
    exact ih (distinct_exec h e)

theorem mem_moves {k : Key} {room : Bool} (es : List Event) : Sweep.Move.found k room ∈ moves t es ↔
    ∃ pre post name label, es = pre ++ .note k.1 name k.2 label :: post ∧ Taken k.1 k.2 label ∧
      room = (freeSlot (run t pre)).isSome := by
  induction es generalizing t with
  | nil => simp [moves]
  | cons e es ih =>
    rw [moves, List.mem_append, ih]
    constructor
    · rintro (hhere | ⟨pre, post, name, label, rfl, htaken, hroom⟩)
      · cases e with
        | begin d => simp only [toMoves] at hhere; split at hhere <;> simp at hhere
        | done d => simp only [toMoves] at hhere; split at hhere <;> simp at hhere
        | note d name id label =>
          simp only [toMoves] at hhere
          split at hhere
          · rename_i htaken
            obtain ⟨rfl, rfl⟩ : k = (d, id) ∧ room = (freeSlot t).isSome := by simpa using hhere
            exact ⟨[], es, name, label, rfl, htaken, rfl⟩
          · simp at hhere
      · exact ⟨e :: pre, post, name, label, rfl, htaken, hroom⟩
    · rintro ⟨pre, post, name, label, hes, htaken, hroom⟩
      cases pre with
      | nil =>
        obtain ⟨rfl, rfl⟩ := List.cons.inj hes
        left
        rw [toMoves, if_pos htaken, hroom]
        exact List.mem_singleton.mpr rfl
      | cons x pre =>
        obtain ⟨rfl, rfl⟩ := List.cons.inj hes
        exact Or.inr ⟨pre, post, name, label, rfl, htaken, hroom⟩

theorem moves_foreign {es : List Event} (hes : ∀ e ∈ es, e ≠ .begin d ∧ e ≠ .done d) :
    ∀ op ∈ moves t es, Sweep.Foreign (ofDevice d) op := by
  induction es generalizing t with
  | nil => simp [moves]
  | cons e es ih =>
    intro op hop
    rw [moves, List.mem_append] at hop
    rcases hop with hop | hop
    · obtain ⟨hbegin, hdone⟩ := hes e List.mem_cons_self
      cases e with
      | begin d' =>
        simp only [toMoves] at hop
        split at hop
        · simp at hop
        · rw [List.mem_singleton.mp hop]
          intro k hk
          have hne : d' ≠ d := fun h => hbegin (h ▸ rfl)
          simp only [ofDevice, decide_eq_true_eq] at hk
          simpa [ofDevice, hk] using hne.symm
      | done d' =>
        simp only [toMoves] at hop
        split at hop
        · simp at hop
        · rw [List.mem_singleton.mp hop]
          intro k hk
          have hne : d' ≠ d := fun h => hdone (h ▸ rfl)
          simp only [ofDevice, decide_eq_true_eq] at hk
          simpa [ofDevice, hk] using hne.symm
      | note d' name id label =>
        simp only [toMoves] at hop
        split at hop
        · rw [List.mem_singleton.mp hop]
          trivial
        · simp at hop
    · exact ih (fun x hx => hes x (List.mem_cons_of_mem _ hx)) op hop

end Marks

/-! ## After a message -/

section Message
variable {t : Table} {d id : CString 63} {i : Fin offeredMax}

theorem distinct_none : Distinct noOffers := by
  intro i j d id hi
  exact absurd (holds_iff.mp hi).1 (by simp [noOffers, Slot.live, CString.empty])

/-- The last call that notes the offer. -/
def lastNote (d id : CString 63) (es : List Event) : Option (CString 63 × CString 63) :=
  es.reverse.findSome? (noteOf d id)

theorem lastNote_append (es : List Event) (e : Event) :
    lastNote d id (es ++ [e]) = (noteOf d id e).or (lastNote d id es) := by
  rw [lastNote, List.reverse_append, List.findSome?_append]
  cases h : noteOf d id e <;> simp [h, lastNote]

theorem run_append (t : Table) (a b : List Event) : run t (a ++ b) = run (run t a) b := List.foldl_append

/-- **Run.** What is there was noted last, or it was there. -/
theorem entry_run (h : Distinct t) (es : List Event) (hslot : slotOf (run t es) d id = some i) :
    lastNote d id es = some ((run t es i).offer.deviceName, (run t es i).offer.label) ∨
      lastNote d id es = none ∧ slotOf t d id = some i := by
  induction es using List.reverseRecOn generalizing i with
  | nil => exact Or.inr ⟨rfl, hslot⟩
  | append_singleton es e ih =>
    have hrun : run t (es ++ [e]) = exec (run t es) e := run_append t es [e]
    rw [hrun] at hslot ⊢
    rw [lastNote_append]
    rcases entry_exec (distinct_run h es) hslot with hnow | ⟨hnone, hbefore, hoffer⟩
    · exact Or.inl (by rw [hnow]; rfl)
    · rw [hnone, hoffer, Option.none_or]
      exact ih hbefore

theorem slotOf_run (h : Distinct t) {es : List Event} (hes : ∀ e ∈ es, e ≠ .done d) (hslot : slotOf t d id = some i) :
    slotOf (run t es) d id = some i := by
  induction es generalizing t with
  | nil => exact hslot
  | cons e es ih =>
    exact ih (distinct_exec h e) (fun x hx => hes x (List.mem_cons_of_mem _ hx))
      (slotOf_exec h hslot (hes e List.mem_cons_self))

def message (t : Table) (d : CString 63) (mid : List Event) : Table := run t (bracket d mid)

theorem message_eq (t : Table) (d : CString 63) (mid : List Event) :
    message t d mid = exec (run (exec t (.begin d)) mid) (.done d) := by
  show run t ([.begin d] ++ mid ++ [.done d]) = _
  rw [run_append, run_append]
  rfl

/-- There was room for the offer when it was noted, or it was in the table. -/
def HasRoom (t : Table) (d id : CString 63) (mid : List Event) : Prop :=
  (slotOf t d id).isSome = true ∨ ∃ pre post name label, mid = pre ++ .note d name id label :: post ∧
    Taken d id label ∧ (freeSlot (run (exec t (.begin d)) pre)).isSome = true

/-- A device begins a message, and other tasks make any calls until it has ended it. -/
theorem message_live (ht : Distinct t) (hd : d.bytes ≠ []) {mid : List Event}
    (hmid : ∀ e ∈ mid, e ≠ .begin d ∧ e ≠ .done d) (id : CString 63) :
    (slotOf (message t d mid) d id).isSome = true ↔
      (∃ name label, .note d name id label ∈ mid ∧ Taken d id label) ∧ HasRoom t d id mid := by
  have hbegin : Distinct (exec t (.begin d)) := distinct_exec ht _
  have hsweep := Sweep.sweep_run (m := marksOf t) (k := (d, id)) (moves_foreign (t := exec t (.begin d)) hmid)
    (by simp [ofDevice])
  have hmarks : marksOf (message t d mid) = Sweep.exec (Sweep.run (Sweep.exec (marksOf t) (.mark (ofDevice d)))
      (moves (exec t (.begin d)) mid)) (.sweep (ofDevice d)) := by
    have hfirst : marksOf (exec t (.begin d)) = Sweep.exec (marksOf t) (.mark (ofDevice d)) := marks_begin hd
    rw [message_eq, ← hfirst, ← marks_run hbegin]
    exact marks_done (distinct_run hbegin mid) hd
  have hsome : ∀ u : Table, (marksOf u (d, id)).isSome = (slotOf u d id).isSome := by
    intro u
    rw [marksOf, Option.isSome_map]
  rw [← hsome, hmarks, hsweep, hsome]
  have hnoted : (∃ room, Sweep.Move.found (d, id) room ∈ moves (exec t (.begin d)) mid) ↔
      ∃ name label, .note d name id label ∈ mid ∧ Taken d id label := by
    simp only [mem_moves]
    constructor
    · rintro ⟨room, pre, post, name, label, rfl, htaken, -⟩
      exact ⟨name, label, by simp, htaken⟩
    · rintro ⟨name, label, hmem, htaken⟩
      obtain ⟨pre, post, rfl⟩ := List.append_of_mem hmem
      exact ⟨_, pre, post, name, label, rfl, htaken, rfl⟩
  have hroom : Sweep.Move.found (d, id) true ∈ moves (exec t (.begin d)) mid ↔
      ∃ pre post name label, mid = pre ++ .note d name id label :: post ∧ Taken d id label ∧
        (freeSlot (run (exec t (.begin d)) pre)).isSome = true := by
    simp only [mem_moves, eq_comm]
  rw [hnoted, hroom, HasRoom]

/-- What is there then has what was noted last, and is where it was. -/
theorem message_entry (ht : Distinct t) (hd : d.bytes ≠ []) {mid : List Event}
    (hmid : ∀ e ∈ mid, e ≠ .begin d ∧ e ≠ .done d) (hslot : slotOf (message t d mid) d id = some i) :
    lastNote d id mid = some ((message t d mid i).offer.deviceName, (message t d mid i).offer.label) ∧
      ∀ j, slotOf t d id = some j → j = i := by
  have hbegin : Distinct (exec t (.begin d)) := distinct_exec ht _
  have hrun : Distinct (run (exec t (.begin d)) mid) := distinct_run hbegin mid
  have hsome : (slotOf (message t d mid) d id).isSome = true := by rw [hslot]; rfl
  rw [message_eq] at hslot ⊢
  obtain ⟨-, hbefore, hoffer⟩ := (entry_exec hrun hslot).resolve_left (by simp [noteOf])
  rw [hoffer]
  refine ⟨(entry_run hbegin mid hbefore).resolve_right ?_, fun j hj => ?_⟩
  · rintro ⟨hnone, -⟩
    obtain ⟨⟨name, label, hmem, htaken⟩, -⟩ := (message_live ht hd hmid id).mp hsome
    have hno := List.findSome?_eq_none_iff.mp hnone _ (List.mem_reverse.mpr hmem)
    simp [noteOf, htaken] at hno
  · have hkept := slotOf_run hbegin (fun e he => (hmid e he).2) (slotOf_exec ht hj (by simp))
    exact Option.some.inj (hkept.symm.trans hbefore)

theorem mem_noted {cfg : Nat → Config} {name : CString 63} {cc : Messages.ClusterConfig} {e : Event} :
    e ∈ noted cfg d name cc ↔
      ∃ f ∈ cc.folders.zipIdx, syncFolderIndex (cfg f.2) f.1.id = none ∧ e = .note d name f.1.id f.1.label := by
  simp only [noted, List.mem_filterMap]
  refine exists_congr fun f => and_congr_right fun _ => ?_
  cases syncFolderIndex (cfg f.2) f.1.id with
  | none => simp [eq_comm]
  | some i => simp

theorem lastNote_filter (es : List Event) :
    lastNote d id (es.filter fun e => decide (e.device = d)) = lastNote d id es := by
  induction es using List.reverseRecOn with
  | nil => rfl
  | append_singleton es e ih =>
    rw [List.filter_append, lastNote_append]
    by_cases he : e.device = d
    · rw [List.filter_singleton, decide_eq_true he, cond_true, lastNote_append, ih]
    · have hnone : noteOf d id e = none := by
        cases e with
        | note d' name id' label => exact if_neg fun h => he h.1
        | begin d' => rfl
        | done d' => rfl
      rw [List.filter_singleton, decide_eq_false he, cond_false, List.append_nil, ih, hnone, Option.none_or]

/-- A call leaves the offers of other devices alone. -/
theorem exec_other (h : Distinct t) (hlive : (t i).live = true) {e : Event} (he : e.device ≠ (t i).offer.deviceId) :
    exec t e i = t i := by
  cases e with
  | begin d =>
    rw [exec, offeredBegin]
    split
    · rfl
    · refine if_neg fun hboth => he ?_
      rw [Bool.and_eq_true, decide_eq_true_eq] at hboth
      exact hboth.2.symm
  | done d =>
    rw [exec, offeredEnd]
    split
    · rfl
    · refine if_neg fun hall => he ?_
      rw [Bool.and_eq_true, decide_eq_true_eq] at hall
      exact hall.2.symm
  | note d name id label =>
    rcases offeredNote_cases h d name id label with ⟨hsame, -⟩ | ⟨-, k, hk, hnew⟩
    · rw [exec, hsame]
    · have hik : i ≠ k := by
        rintro rfl
        rcases target_facts h hk with hown | ⟨-, hdead⟩
        · exact he (holds_iff.mp hown).2.2.symm
        · exact absurd hlive (by simp [hdead])
      rw [exec, hnew, Function.update_of_ne hik]

theorem run_other (h : Distinct t) (hlive : (t i).live = true) {es : List Event}
    (hes : ∀ e ∈ es, e.device ≠ (t i).offer.deviceId) : run t es i = t i := by
  induction es generalizing t with
  | nil => rfl
  | cons e es ih =>
    have hfirst := exec_other h hlive (hes e List.mem_cons_self)
    have hrest : run (exec t e) es i = exec t e i :=
      ih (distinct_exec h e) (by rw [hfirst]; exact hlive) fun x hx => by
        rw [hfirst]
        exact hes x (List.mem_cons_of_mem _ hx)
    exact hrest.trans hfirst

/-- **Followed.** A device's ClusterConfig is read while the tasks of other devices make any calls. Then the
table has, for this device, the folders of the message that are not configured and can be written down,
unless there was no room; each under the name and the label of its last mention. What was there and
is still has not changed its slot, and the offers of a device that made no call are as they were. -/
theorem offers_follow (es : List Event) (hd : d.bytes ≠ []) (cfg : Nat → Config) (name : CString 63)
    (cc : Messages.ClusterConfig) {mid : List Event}
    (hcalls : (bracket d mid).filter (fun e => decide (e.device = d)) = messageEvents cfg d name cc) :
    (∀ id, (slotOf (message (run noOffers es) d mid) d id).isSome = true ↔
      (∃ f ∈ cc.folders.zipIdx, f.1.id = id ∧ syncFolderIndex (cfg f.2) id = none ∧ Taken d id f.1.label) ∧
        HasRoom (run noOffers es) d id mid) ∧
    (∀ id i, slotOf (message (run noOffers es) d mid) d id = some i →
      lastNote d id (noted cfg d name cc) = some ((message (run noOffers es) d mid i).offer.deviceName,
        (message (run noOffers es) d mid i).offer.label) ∧
      ∀ j, slotOf (run noOffers es) d id = some j → j = i) ∧
    ∀ i, (run noOffers es i).live = true → (run noOffers es i).offer.deviceId ≠ d →
      (∀ e ∈ mid, e.device ≠ (run noOffers es i).offer.deviceId) →
        message (run noOffers es) d mid i = run noOffers es i := by
  have ht : Distinct (run noOffers es) := distinct_run distinct_none es
  generalize run noOffers es = t at ht
  have hmid : mid.filter (fun e => decide (e.device = d)) = noted cfg d name cc := by
    simpa [messageEvents, bracket, Event.device, List.filter_cons] using hcalls
  have hown : ∀ e, e.device = d → (e ∈ mid ↔ e ∈ noted cfg d name cc) := by
    intro e he
    rw [← hmid, List.mem_filter]
    simp [he]
  have hquiet : ∀ e ∈ mid, e ≠ .begin d ∧ e ≠ .done d := by
    intro e he
    constructor
    · rintro rfl
      obtain ⟨f, -, -, hf⟩ := mem_noted.mp ((hown _ rfl).mp he)
      exact absurd hf (by simp)
    · rintro rfl
      obtain ⟨f, -, -, hf⟩ := mem_noted.mp ((hown _ rfl).mp he)
      exact absurd hf (by simp)
  have hnotes : ∀ id, (∃ name' label, .note d name' id label ∈ mid ∧ Taken d id label) ↔
      ∃ f ∈ cc.folders.zipIdx, f.1.id = id ∧ syncFolderIndex (cfg f.2) id = none ∧ Taken d id f.1.label := by
    intro id
    constructor
    · rintro ⟨name', label, hmem, htaken⟩
      obtain ⟨f, hf, hnone, heq⟩ := mem_noted.mp ((hown _ rfl).mp hmem)
      obtain ⟨-, -, rfl, rfl⟩ := Event.note.inj heq
      exact ⟨f, hf, rfl, hnone, htaken⟩
    · rintro ⟨f, hf, rfl, hnone, htaken⟩
      exact ⟨name, f.1.label, (hown _ rfl).mpr (mem_noted.mpr ⟨f, hf, hnone, rfl⟩), htaken⟩
  refine ⟨fun id => ?_, fun id i hslot => ?_, fun i hlive hne hothers => ?_⟩
  · rw [message_live ht hd hquiet id, hnotes]
  · rw [← hmid, lastNote_filter]
    exact message_entry ht hd hquiet hslot
  · refine run_other ht hlive fun e he => ?_
    rw [bracket] at he
    rcases List.mem_append.mp he with he | he
    · rcases List.mem_cons.mp he with rfl | he
      · exact hne.symm
      · exact hothers e he
    · rw [List.mem_singleton.mp he]
      exact hne.symm

/-- Device `d` offers the folder `a`, while device `e` begins a message too. -/
def sampleCalls : List Event :=
  [.begin (.ofBytes 63 [101]), .note (.ofBytes 63 [100]) (.empty _) (.ofBytes 63 [97]) (.empty _)]

def sampleMessage : Messages.ClusterConfig :=
  ⟨[⟨.ofBytes 63 [97], .empty _, 0, [], Nat.zero_le _⟩], by decide⟩

theorem offers_follow_sample :
    (slotOf (message noOffers (.ofBytes 63 [100]) sampleCalls) (.ofBytes 63 [100]) (.ofBytes 63 [97])).isSome =
      true := by
  have hd : (CString.ofBytes 63 [100]).bytes ≠ [] := by decide
  have hcalls : (bracket (.ofBytes 63 [100]) sampleCalls).filter (fun e => decide (e.device = .ofBytes 63 [100])) =
      messageEvents (fun _ => sampleConfig (.ofBytes 63 [98])) (.ofBytes 63 [100]) (.empty _) sampleMessage := by
    decide
  have hfollow := (offers_follow [] hd (fun _ => sampleConfig (.ofBytes 63 [98])) (.empty _) sampleMessage hcalls).1
  refine (hfollow (.ofBytes 63 [97])).mpr ⟨⟨_, List.mem_singleton.mpr rfl, rfl, by decide, by decide⟩, Or.inr ?_⟩
  exact ⟨[.begin (.ofBytes 63 [101])], [], .empty _, .empty _, rfl, by decide, by decide⟩

/-- **Acceptable.** After any calls, each offer is there once, with what its device noted of it last, and
it can be written to the configuration as a folder with any drawer that can. -/
theorem offers_acceptable (es : List Event) {i : Fin offeredMax} (hlive : (run noOffers es i).live = true) :
    (∀ j, (run noOffers es j).holds (run noOffers es i).offer.deviceId (run noOffers es i).offer.id = true → j = i) ∧
    lastNote (run noOffers es i).offer.deviceId (run noOffers es i).offer.id es =
      some ((run noOffers es i).offer.deviceName, (run noOffers es i).offer.label) ∧
    ∀ (path : Str) (file : Option Str) (drawer : Str) (mode : FolderMode), textFieldSafe drawer = true →
      (configAppendFolder path file (run noOffers es i).offer.id.bytes drawer mode
        (run noOffers es i).offer.label.bytes).isSome = true := by
  have hdistinct := distinct_run distinct_none es
  have hholds : (run noOffers es i).holds (run noOffers es i).offer.deviceId (run noOffers es i).offer.id = true :=
    holds_iff.mpr ⟨hlive, rfl, rfl⟩
  have hlast := (entry_run distinct_none es ((slotOf_some hdistinct).mpr hholds)).resolve_right (by
    rintro ⟨-, hthere⟩
    have hstart := (holds_iff.mp (holds_of_slotOf hthere)).1
    simp [noOffers, Slot.live, CString.empty] at hstart)
  refine ⟨fun j hj => hdistinct j i _ _ hj hholds, hlast, fun path file drawer mode hdrawer => ?_⟩
  obtain ⟨e, -, he⟩ := List.exists_of_findSome?_eq_some hlast
  have hsafe : textFieldSafe (run noOffers es i).offer.id.bytes = true ∧
      textFieldSafe (run noOffers es i).offer.label.bytes = true := by
    cases e with
    | begin d => exact absurd he (by simp [noteOf])
    | done d => exact absurd he (by simp [noteOf])
    | note d name id label =>
      rw [noteOf] at he
      split at he
      · rename_i htaken
        obtain ⟨-, -, htaken⟩ := htaken
        rw [← (Prod.mk.inj (Option.some.inj he)).2]
        exact ⟨htaken.2.2.1, htaken.2.2.2⟩
      · exact absurd he (by simp)
  unfold configAppendFolder
  rw [hsafe.1, hsafe.2, hdrawer]
  rfl

theorem offers_acceptable_sample :
    (configAppendFolder [] none [97] [87, 58] .sendReceive []).isSome = true := by
  have hlive : (run noOffers sampleCalls ⟨0, by decide⟩).live = true := by decide
  exact (offers_acceptable _ hlive).2.2 [] none [87, 58] .sendReceive (by decide)

end Message

end Amisync.Offered
