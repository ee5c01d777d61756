import Amisync.Batch
import Amisync.Incoming
import Amisync.Versions

/-!
# Which file and which version an entry speaks of (`bep.c`, `worker.c`)

A peer's entry names a file and gives it a version vector, of any length. The
decoder keeps both in fixed arrays.

* `wireName`, `wireVector`: what the bytes of an entry say, with no limit.
* `name_of_decode`, `vector_of_decode`: what the decoder keeps of it.
* `comparesAs_iff`: a cut vector compares as the whole one exactly when nothing
  but zero counters was cut off.
* `identity_kept_iff`: an entry is taken for what it is exactly when its name
  fits without a NUL byte, no id is in its vector twice, and all that the
  vector has past the sixteenth counter is 0, or when it is passed over.
-/

namespace Amisync.Identity

open Pbuf Bep Incoming Versions

/-! ## What is on the wire -/

/-- The last name of an entry. -/
def wireName (e : Bytes) : Bytes := (lastData 1 (fieldsOf e).1).getD []

def wireNum (field : UInt32) (e : Bytes) : UInt64 := (lastNum field (fieldsOf e).1).getD 0

/-- The bytes of a counter in a vector. -/
def counterField : UInt32 × Value → Option Bytes
  | (f, .data b) => if f = 1 then some b else none
  | _ => none

/-- All counters of a vector, where all can be read. -/
def wireCounters (l : List (UInt32 × Value)) : Option (List Counter) :=
  (l.filterMap counterField).mapM Bep.decodeCounter

/-- The last vector of an entry. -/
def wireVector (e : Bytes) : Option (List Counter) :=
  match lastData 9 (fieldsOf e).1 with
  | none => some []
  | some d => wireCounters (fieldsOf d).1

/-! ## What is kept of it -/

/-- The fields read so far and the record they make. -/
structure Decodes (l : List (UInt32 × Value)) (fi : FileInfo) : Prop where
  name : fi.name = .ofBytes _ ((lastData 1 l).getD [])
  type : fi.type = toInt ((lastNum 2 l).getD 0)
  invalid : fi.invalid = toInt ((lastNum 7 l).getD 0)
  version : match lastData 9 l with
    | none => fi.version = .empty
    | some d => Bep.decodeVector d = some fi.version

theorem decodes_zero : Decodes [] FileInfo.zero where
  name := by decide
  type := rfl
  invalid := rfl
  version := rfl

section StoreNum
variable (fi : FileInfo) (f : UInt32) (v : UInt64)

theorem name_storeNum : (storeNum fi f v).name = fi.name := by
  simp only [storeNum, apply_ite FileInfo.name, ite_self]

theorem version_storeNum : (storeNum fi f v).version = fi.version := by
  simp only [storeNum, apply_ite FileInfo.version, ite_self]

theorem type_storeNum : (storeNum fi f v).type = if f = 2 then toInt v else fi.type := by
  simp only [storeNum, apply_ite FileInfo.type, ite_self]

theorem invalid_storeNum : (storeNum fi f v).invalid = if f = 7 then toInt v else fi.invalid := by
  by_cases hf : f = 7
  · subst hf
    rfl
  · simp only [storeNum, apply_ite FileInfo.invalid, ite_self, if_neg hf]

end StoreNum

theorem decodes_num {l : List (UInt32 × Value)} {fi : FileInfo} (h : Decodes l fi) (f : UInt32)
    (v : UInt64) : Decodes (l ++ [(f, .num v)]) (storeNum fi f v) where
  name := by
    rw [name_storeNum, lastData_concat]
    exact h.name
  type := by
    rw [type_storeNum, lastNum_concat, h.type]
    dsimp only
    by_cases hf : f = 2
    · rw [if_pos hf, if_pos hf]
      rfl
    · rw [if_neg hf, if_neg hf]
  invalid := by
    rw [invalid_storeNum, lastNum_concat, h.invalid]
    dsimp only
    by_cases hf : f = 7
    · rw [if_pos hf, if_pos hf]
      rfl
    · rw [if_neg hf, if_neg hf]
  version := by
    rw [version_storeNum, lastData_concat]
    exact h.version

/-- What a length-delimited field can do to a record. -/
theorem storeData_cases {fi fi' : FileInfo} {f : UInt32} {b : Bytes}
    (hs : storeData fi f b = some fi') :
    (f = 1 ∧ fi' = { fi with name := .ofBytes _ b }) ∨
    (f = 9 ∧ ∃ v, Bep.decodeVector b = some v ∧ fi' = { fi with version := v }) ∨
    (f ≠ 1 ∧ f ≠ 9 ∧ ∃ blocks, fi' = { fi with blocks := blocks }) := by
  unfold storeData at hs
  by_cases h1 : f = 1
  · rw [if_pos h1] at hs
    exact Or.inl ⟨h1, (Option.some.inj hs).symm⟩
  rw [if_neg h1] at hs
  by_cases h9 : f = 9
  · rw [if_pos h9] at hs
    obtain ⟨v, hv, hfi⟩ := Option.map_eq_some_iff.mp hs
    exact Or.inr (Or.inl ⟨h9, v, hv, hfi.symm⟩)
  rw [if_neg h9] at hs
  refine Or.inr (Or.inr ⟨h1, h9, ?_⟩)
  by_cases h16 : f = 16
  · rw [if_pos h16] at hs
    obtain ⟨blk, -, hfi⟩ := Option.map_eq_some_iff.mp hs
    exact ⟨fi.blocks ++ [blk], hfi.symm⟩
  · rw [if_neg h16] at hs
    exact ⟨fi.blocks, (Option.some.inj hs).symm⟩

theorem decodes_data {l : List (UInt32 × Value)} {fi fi' : FileInfo} (h : Decodes l fi) {f : UInt32}
    {b : Bytes} (hs : storeData fi f b = some fi') : Decodes (l ++ [(f, .data b)]) fi' := by
  have htype : fi.type = toInt ((lastNum 2 (l ++ [(f, .data b)])).getD 0) := by
    rw [lastNum_concat]
    exact h.type
  have hinvalid : fi.invalid = toInt ((lastNum 7 (l ++ [(f, .data b)])).getD 0) := by
    rw [lastNum_concat]
    exact h.invalid
  rcases storeData_cases hs with ⟨rfl, rfl⟩ | ⟨rfl, v, hv, rfl⟩ | ⟨h1, h9, blocks, rfl⟩
  · refine ⟨?_, htype, hinvalid, ?_⟩
    · rw [lastData_concat]
      rfl
    · rw [lastData_concat]
      exact h.version
  · refine ⟨?_, htype, hinvalid, ?_⟩
    · rw [lastData_concat]
      exact h.name
    · rw [lastData_concat]
      exact hv
  · refine ⟨?_, htype, hinvalid, ?_⟩
    · rw [lastData_concat]
      dsimp only
      rw [if_neg h1]
      exact h.name
    · rw [lastData_concat]
      dsimp only
      rw [if_neg h9]
      exact h.version

theorem decodes_store {l : List (UInt32 × Value)} {fi fi' : FileInfo} (h : Decodes l fi) {f : UInt32}
    {v : Value} (hs : store fi f v = some fi') : Decodes (l ++ [(f, v)]) fi' := by
  cases v with
  | num v =>
    rw [← Option.some.inj hs]
    exact decodes_num h f v
  | data b => exact decodes_data h hs
  | fixed =>
    rw [← Option.some.inj hs]
    refine ⟨?_, ?_, ?_, ?_⟩
    · rw [lastData_concat]
      exact h.name
    · rw [lastNum_concat]
      exact h.type
    · rw [lastNum_concat]
      exact h.invalid
    · rw [lastData_concat]
      exact h.version

theorem decodes_of_decode {e : Bytes} {fi : FileInfo} (h : decodeFileInfoCb e = some fi) :
    Decodes (fieldsOf e).1 fi :=
  readMessage_inv Decodes (fun _ _ _ _ _ hI hs => decodes_store hI hs) decodes_zero h

theorem wireCounters_concat (l : List (UInt32 × Value)) (x : UInt32 × Value) :
    wireCounters (l ++ [x]) = match counterField x with
      | none => wireCounters l
      | some b => (wireCounters l).bind fun cs => (Bep.decodeCounter b).map fun c => cs ++ [c] := by
  rw [wireCounters, wireCounters, List.filterMap_append]
  cases h : counterField x with
  | none => simp [h]
  | some b =>
    simp only [List.filterMap_cons, h, List.filterMap_nil, List.mapM_append, List.mapM_cons,
      List.mapM_nil]
    cases List.mapM Bep.decodeCounter (List.filterMap counterField l) with
    | none => rfl
    | some cs =>
      cases Bep.decodeCounter b with
      | none => rfl
      | some c => rfl

theorem counterField_eq_none {f : UInt32} (h : f ≠ 1) (v : Value) : counterField (f, v) = none := by
  cases v with
  | data b => exact if_neg h
  | _ => rfl

/-- What one field adds to the stored vector. -/
theorem storeCounter_step {l : List (UInt32 × Value)} {v v' : Counters} {f : UInt32} {x : Value}
    (h : ∀ cs, wireCounters l = some cs → v.list = cs.take bepMaxCounters)
    (hs : storeCounter v f x = some v') :
    ∀ cs, wireCounters (l ++ [(f, x)]) = some cs → v'.list = cs.take bepMaxCounters := by
  intro cs hcs
  rw [wireCounters_concat] at hcs
  cases x with
  | num n =>
    rw [← Option.some.inj hs]
    exact h cs hcs
  | fixed =>
    rw [← Option.some.inj hs]
    exact h cs hcs
  | data b =>
    by_cases hf : f = 1
    · subst hf
      simp only [counterField, ↓reduceIte] at hcs
      obtain ⟨cs₀, h₀, hcs⟩ := Option.bind_eq_some_iff.mp hcs
      obtain ⟨c, hc, rfl⟩ := Option.map_eq_some_iff.mp hcs
      have hv := h cs₀ h₀
      have hlen := congrArg List.length hv
      rw [List.length_take] at hlen
      by_cases hroom : v.list.length < bepMaxCounters
      · rw [storeCounter, if_pos ⟨rfl, hroom⟩, hc, Option.map_some, Option.some.injEq] at hs
        have hshort : cs₀.length < bepMaxCounters := by omega
        have hall : (cs₀ ++ [c]).length ≤ bepMaxCounters := by
          rw [List.length_append]
          exact hshort
        rw [← hs, Counters.push_eq v c hroom, hv, List.take_of_length_le hshort.le,
          List.take_of_length_le hall]
      · rw [storeCounter, if_neg (fun h => hroom h.2), Option.some.injEq] at hs
        have hlong : bepMaxCounters ≤ cs₀.length := by omega
        rw [← hs, hv, List.take_append_of_le_length hlong]
    · rw [storeCounter, if_neg (fun h => hf h.1), Option.some.injEq] at hs
      rw [counterField_eq_none hf] at hcs
      rw [← hs]
      exact h cs hcs

/-- **Vectors.** The first sixteen counters of what is on the wire. -/
theorem vector_of_decode {e : Bytes} {fi : FileInfo} (h : decodeFileInfoCb e = some fi)
    {cs : List Counter} (hw : wireVector e = some cs) : fi.version.list = cs.take bepMaxCounters := by
  have hver := (decodes_of_decode h).version
  rw [wireVector] at hw
  cases hd : lastData 9 (fieldsOf e).1 with
  | none =>
    rw [hd] at hver hw
    rw [hver, ← Option.some.inj hw]
    rfl
  | some d =>
    rw [hd] at hver hw
    refine readMessage_inv (fun l v => ∀ cs, wireCounters l = some cs → v.list = cs.take bepMaxCounters)
      (fun _ _ _ _ _ hI hs => storeCounter_step hI hs) ?_ hver cs hw
    intro cs hcs
    rw [← Option.some.inj hcs]
    rfl

/-- **Names.** Up to the first NUL byte, and no more than 255 bytes. -/
theorem name_of_decode {e : Bytes} {fi : FileInfo} (h : decodeFileInfoCb e = some fi) :
    fi.name = .ofBytes _ (wireName e) :=
  (decodes_of_decode h).name

/-! ## How a cut vector compares -/

/-- The values of a vector as it came off the wire. -/
def toVersion (cs : List Counter) : List BepCounter := cs.map fun c => ⟨c.id.toNat, c.value.toNat⟩

def vectorOf (v : Counters) : BepVector where
  counters := toVersion v.list
  bound := by
    rw [toVersion, List.length_map]
    exact v.bound

/-- No id occurs twice. -/
def DistinctIds (cs : List Counter) : Prop := (cs.map Counter.id).Nodup

instance (cs : List Counter) : Decidable (DistinctIds cs) := inferInstanceAs (Decidable (List.Nodup _))

theorem ids_toVersion (cs : List Counter) :
    (toVersion cs).map BepCounter.id = (cs.map Counter.id).map UInt64.toNat := by
  rw [toVersion, List.map_map, List.map_map]
  rfl

theorem distinct_vectorOf {v : Counters} (h : DistinctIds v.list) : (vectorOf v).Distinct := by
  show ((toVersion v.list).map BepCounter.id).Nodup
  rw [ids_toVersion]
  exact h.map (fun a b hab => UInt64.toNat_inj.mp hab)

theorem counterMap_append (cs ds : List BepCounter) :
    counterMap (cs ++ ds) = counterMap cs + counterMap ds := by
  simp [counterMap]

theorem counterMap_zero {cs : List BepCounter} (h : ∀ c ∈ cs, c.value = 0) : counterMap cs = 0 := by
  induction cs with
  | nil => rfl
  | cons c cs ih =>
    have hc := h c List.mem_cons_self
    have hcs := ih fun d hd => h d (List.mem_cons_of_mem _ hd)
    simpa [counterMap, hc] using hcs

theorem relOf_ours_or_equal {α : Type*} [PartialOrder α] (a b : α) :
    relOf a b = .ours ∨ relOf a b = .equal ↔ b ≤ a := by
  unfold relOf
  constructor
  · intro h
    split_ifs at h with h1 h2 h3
    · exact h1.ge
    · exact h2
    · simp at h
    · simp at h
  · intro h
    split_ifs with h1
    · exact Or.inr rfl
    · exact Or.inl rfl

/-- The stored vector stands for the whole one, on either side of a comparison. -/
def ComparesAs (v : Counters) (cs : List Counter) : Prop :=
  ∀ w : BepVector, w.Distinct →
    syncVersionCompare (vectorOf v) w = relOf (counterMap (toVersion cs)) (counterMap w.counters) ∧
    syncVersionCompare w (vectorOf v) = relOf (counterMap w.counters) (counterMap (toVersion cs))

theorem toVersion_take_drop (cs : List Counter) : counterMap (toVersion cs) =
    counterMap (toVersion (cs.take bepMaxCounters)) +
      counterMap (toVersion (cs.drop bepMaxCounters)) := by
  rw [← counterMap_append, toVersion, toVersion, toVersion, ← List.map_append, List.take_append_drop]

section Compares
variable {v : Counters} {cs : List Counter} (hd : DistinctIds cs)
  (hv : v.list = cs.take bepMaxCounters)
include hd hv

theorem distinct_stored : (vectorOf v).Distinct := by
  refine distinct_vectorOf ?_
  rw [hv, DistinctIds, List.map_take]
  exact hd.sublist (List.take_sublist _ _)

theorem comparesAs_of_zero (hz : ∀ c ∈ cs.drop bepMaxCounters, c.value = 0) : ComparesAs v cs := by
  have hdist := distinct_stored hd hv
  have hmap : counterMap (vectorOf v).counters = counterMap (toVersion cs) := by
    have hrest : counterMap (toVersion (cs.drop bepMaxCounters)) = 0 := by
      refine counterMap_zero fun c hc => ?_
      obtain ⟨d, hmem, rfl⟩ := List.mem_map.mp hc
      rw [hz d hmem]
      rfl
    rw [toVersion_take_drop, hrest, add_zero, ← hv]
    rfl
  intro w hw
  rw [compare_eq_relOf hdist hw, compare_eq_relOf hw hdist, hmap]
  exact ⟨rfl, rfl⟩

/-- A lost counter shows against the vector of that counter alone. -/
theorem zero_of_comparesAs (h : ComparesAs v cs) :
    ∀ c ∈ cs.drop bepMaxCounters, c.value = 0 := by
  intro c hc
  by_contra hne
  have hpos : c.value.toNat ≠ 0 := fun e => hne (UInt64.toNat_inj.mp e)
  have hdist := distinct_stored hd hv
  let w := BepVector.single c.id.toNat c.value.toNat
  have hw : w.Distinct := by simp [w, BepVector.single, BepVector.Distinct]
  have hfull : counterMap w.counters ≤ counterMap (toVersion cs) := by
    have hsingle : counterMap w.counters = Finsupp.single c.id.toNat c.value.toNat := by
      simp [w, BepVector.single, counterMap]
    obtain ⟨l, r, hlr⟩ := List.append_of_mem hc
    rw [hsingle, toVersion_take_drop, hlr, toVersion, toVersion, List.map_append, List.map_cons,
      ← List.singleton_append, counterMap_append, counterMap_append]
    have hone : counterMap [(⟨c.id.toNat, c.value.toNat⟩ : BepCounter)] =
        Finsupp.single c.id.toNat c.value.toNat := by simp [counterMap]
    rw [hone]
    exact le_add_of_nonneg_of_le (zero_le) (le_add_of_nonneg_of_le (zero_le) le_self_add)
  have hcut : ¬ counterMap w.counters ≤ counterMap (vectorOf v).counters := by
    intro hle
    have habs : c.id.toNat ∉ (vectorOf v).counters.map BepCounter.id := by
      show c.id.toNat ∉ (toVersion v.list).map BepCounter.id
      rw [ids_toVersion, hv]
      intro hmem
      obtain ⟨i, hi, hie⟩ := List.mem_map.mp hmem
      obtain ⟨d, hdm, hdi⟩ := List.mem_map.mp hi
      have hids : DistinctIds (cs.take bepMaxCounters ++ cs.drop bepMaxCounters) := by
        rw [List.take_append_drop]
        exact hd
      rw [DistinctIds, List.map_append] at hids
      have hdisj := List.disjoint_of_nodup_append hids
      exact hdisj (List.mem_map_of_mem hdm)
        (by rw [hdi, UInt64.toNat_inj.mp hie]; exact List.mem_map_of_mem hc)
    have hat := hle c.id.toNat
    rw [counterMap_absent habs] at hat
    have hval : counterMap w.counters c.id.toNat = c.value.toNat := by
      simp [w, BepVector.single, counterMap]
    omega
  have hrel := (relOf_ours_or_equal _ _).mpr hfull
  rw [← (h w hw).1, compare_eq_relOf hdist hw] at hrel
  exact hcut ((relOf_ours_or_equal _ _).mp hrel)

/-- **What may be cut off.** -/
theorem comparesAs_iff : ComparesAs v cs ↔ ∀ c ∈ cs.drop bepMaxCounters, c.value = 0 :=
  ⟨zero_of_comparesAs hd hv, comparesAs_of_zero hd hv⟩

end Compares

/-! ## The entries of an Index -/

/-- The loop of `bep_index_iter_next_cb`, with the bytes each record was decoded from. -/
def entryLoop : Nat → Bytes → IndexIter × Option (Bytes × FileInfo)
  | 0, _ => (⟨[], false⟩, none)
  | fuel + 1, b =>
    match readTag b with
    | .tag field wt rest =>
      if field = 2 ∧ wt = wtLen then
        match readBytes rest with
        | none => (⟨b, true⟩, none)
        | some (d, rest) =>
          match decodeFileInfoCb d with
          | none => (⟨rest, true⟩, none)
          | some fi => (⟨rest, false⟩, some (d, fi))
      else match readValue wt rest with
        | none => (⟨b, true⟩, none)
        | some (_, rest) => entryLoop fuel rest
    | _ => (⟨[], false⟩, none)

def entryNext (it : IndexIter) : IndexIter × Option (Bytes × FileInfo) :=
  if it.error || it.rest.isEmpty then (it, none) else entryLoop it.rest.length it.rest

def entryAll : Nat → IndexIter → List (Bytes × FileInfo)
  | 0, _ => []
  | fuel + 1, it =>
    match entryNext it with
    | (_, none) => []
    | (it, some x) => x :: entryAll fuel it

/-- Every entry of a body that is delivered: its bytes and the record. -/
def readEntries (body : Bytes) : List (Bytes × FileInfo) := entryAll (body.length + 1) ⟨body, false⟩

/-- The two loops go the same way, and what is handed over is a decoded entry. -/
def Tracks (r : IndexIter × Option FileInfo) (x : IndexIter × Option (Bytes × FileInfo)) : Prop :=
  r = (x.1, x.2.map Prod.snd) ∧ ∀ y ∈ x.2, decodeFileInfoCb y.1 = some y.2

theorem tracks_none (it : IndexIter) : Tracks (it, none) (it, none) :=
  ⟨rfl, fun x hx => absurd hx (Option.not_mem_none x)⟩

theorem tracks_entryLoop (fuel : Nat) (b : Bytes) : Tracks (iterLoop fuel b) (entryLoop fuel b) := by
  induction fuel generalizing b with
  | zero => exact tracks_none _
  | succ fuel ih =>
    rw [iterLoop, entryLoop]
    cases readTag b with
    | eof => exact tracks_none _
    | error => exact tracks_none _
    | tag field wt rest =>
      dsimp only
      by_cases hf : field = 2 ∧ wt = wtLen
      · rw [if_pos hf, if_pos hf]
        cases readBytes rest with
        | none => exact tracks_none _
        | some r =>
          obtain ⟨d, rest⟩ := r
          dsimp only
          cases hd : decodeFileInfoCb d with
          | none => exact tracks_none _
          | some fi =>
            refine ⟨rfl, fun x hx => ?_⟩
            rw [Option.mem_some] at hx
            rw [← hx]
            exact hd
      · rw [if_neg hf, if_neg hf]
        cases readValue wt rest with
        | none => exact tracks_none _
        | some r => exact ih r.2

theorem tracks_entryNext (it : IndexIter) : Tracks (iterNext it) (entryNext it) := by
  rw [iterNext, entryNext]
  by_cases h : (it.error || it.rest.isEmpty) = true
  · rw [if_pos h, if_pos h]
    exact tracks_none it
  · rw [if_neg h, if_neg h]
    exact tracks_entryLoop _ _

theorem entryAll_eq (fuel : Nat) (it : IndexIter) :
    (iterAll fuel it).1 = (entryAll fuel it).map Prod.snd ∧
      ∀ x ∈ entryAll fuel it, decodeFileInfoCb x.1 = some x.2 := by
  induction fuel generalizing it with
  | zero => exact ⟨rfl, fun x hx => absurd hx List.not_mem_nil⟩
  | succ fuel ih =>
    obtain ⟨hnext, hdec⟩ := tracks_entryNext it
    rw [iterAll, entryAll, hnext]
    cases hx : entryNext it with
    | mk it' x =>
      rw [hx] at hdec
      cases x with
      | none => exact ⟨rfl, fun x hx => absurd hx List.not_mem_nil⟩
      | some x =>
        refine ⟨congrArg (x.2 :: ·) (ih it').1, ?_⟩
        intro y hy
        rcases List.mem_cons.mp hy with rfl | hy
        · exact hdec y rfl
        · exact (ih it').2 y hy

/-! ## What an entry is taken for -/

/-- The entry is about the file and the version its bytes name. -/
structure Same (e : Bytes) (fi : FileInfo) : Prop where
  name : fi.name.bytes = wireName e
  vector : ∃ cs, wireVector e = some cs ∧ DistinctIds cs ∧ ComparesAs fi.version cs

/-- A record that is not passed over is what its bytes say. -/
def IdentityKept (e : Bytes) (fi : FileInfo) : Prop := ¬ Skipped ⟨fi, none⟩ → Same e fi

/-- `handle_index` passes over the entry: marked invalid, an unsafe name, neither a file nor a
drawer. -/
def PassedOver (e : Bytes) : Prop :=
  toInt (wireNum 7 e) ≠ 0 ∨
    pathNameSafe (CString.ofBytes (bepPathMax - 1) (wireName e)).bytes = false ∨
    (toInt (wireNum 2 e) ≠ 0 ∧ toInt (wireNum 2 e) ≠ 1)

/-- Nothing of what the bytes say is lost. -/
structure Whole (e : Bytes) : Prop where
  short : (wireName e).length ≤ bepPathMax - 1
  nonul : (0 : UInt8) ∉ wireName e
  vector : ∃ cs, wireVector e = some cs ∧ DistinctIds cs ∧
    ∀ c ∈ cs.drop bepMaxCounters, c.value = 0

theorem skipped_iff {e : Bytes} {fi : FileInfo} (h : decodeFileInfoCb e = some fi) :
    Skipped ⟨fi, none⟩ ↔ PassedOver e := by
  have hd := decodes_of_decode h
  rw [Skipped, PassedOver, hd.invalid, hd.type, name_of_decode h]
  rfl

/-- **One entry.** -/
theorem same_iff {e : Bytes} {fi : FileInfo} (h : decodeFileInfoCb e = some fi) :
    Same e fi ↔ Whole e := by
  have hname := name_of_decode h
  constructor
  · rintro ⟨hn, cs, hcs, hd, hcmp⟩
    refine ⟨?_, ?_, cs, hcs, hd, ?_⟩
    · rw [← hn]
      exact fi.name.short
    · rw [← hn]
      exact fi.name.nonul
    · exact (comparesAs_iff hd (vector_of_decode h hcs)).mp hcmp
  · rintro ⟨hs, hn, cs, hcs, hd, hz⟩
    refine ⟨?_, cs, hcs, hd, ?_⟩
    · rw [hname]
      exact CString.bytes_ofBytes hs hn
    · exact (comparesAs_iff hd (vector_of_decode h hcs)).mpr hz

/-- **The records of an Index are what their bytes say.** -/
theorem identity_kept_iff (body : Bytes) :
    (readEntries body).map Prod.snd = (readIndex body).1 ∧
      ∀ x ∈ readEntries body,
        decodeFileInfoCb x.1 = some x.2 ∧
          (IdentityKept x.1 x.2 ↔ PassedOver x.1 ∨ Whole x.1) := by
  obtain ⟨hmap, hdec⟩ := entryAll_eq (body.length + 1) ⟨body, false⟩
  refine ⟨hmap.symm, ?_⟩
  intro x hx
  have h := hdec x hx
  refine ⟨h, ?_⟩
  rw [IdentityKept, skipped_iff h, same_iff h]
  exact imp_iff_not_or.trans (or_congr_left not_not)

/-- A file whose name is one byte too long. -/
def longEntry : Bytes := [0x0A, 0x80, 0x02] ++ List.replicate 256 97

def longBody : Bytes := [0x12, 0x83, 0x02] ++ longEntry

def longInfo : FileInfo := { FileInfo.zero with name := .ofBytes _ (List.replicate 256 97) }

/-- It is delivered as the file of the first 255 bytes, and not passed over. -/
theorem long_name_delivered :
    readEntries longBody = [(longEntry, longInfo)] ∧ longInfo.name.bytes = List.replicate 255 97 ∧
      wireName longEntry = List.replicate 256 97 ∧ ¬ IdentityKept longEntry longInfo := by
  have hname : wireName longEntry = List.replicate 256 97 := by decide +kernel
  refine ⟨by decide +kernel, by decide +kernel, hname, ?_⟩
  intro hk
  have hsame := hk (by decide +kernel)
  have hlen := congrArg List.length hsame.name
  rw [hname] at hlen
  exact absurd hlen (by decide +kernel)

end Amisync.Identity
