import Amisync.Batch

/-!
# Two readers of an Index body (`bep_index_summary`, `bep_index_iter_next_cb`)

One counts the records in a single pass, the other starts anew behind each record.
Both walk the same fields, and they part at a tag that cannot be read.

* `Entries`: the records of a body, and how it stops.
* `indexSummary_entries`, `walkIndex_entries`: the two readers in these terms.
* `readIndex_eq`: the iterator whose callback keeps every block.
* `index_reports_iff`: when what the one rejects is reported by the other.
-/

namespace Amisync

open Pbuf

namespace Bep

/-! ## The readers -/

structure IndexSummary where
  folder : CString 63
  numFiles : Nat

/-- A field of the body: its folder, or one record more. -/
def noteField (s : IndexSummary) (field : UInt32) : Value → IndexSummary
  | .data d => if field = 1 then { s with folder := .ofBytes _ d }
      else if field = 2 then { s with numFiles := s.numFiles + 1 } else s
  | _ => s

/-- `bep_index_summary`; the flag is what it returns. -/
def indexSummary (body : Bytes) : IndexSummary × Bool :=
  readFields (fun s _ _ => some s) noteField body.length ⟨.empty _, 0⟩ body

section Callback
variable {σ : Type*} (cb : σ → Nat → BlockInfo → Option σ)

/-- A field of a record. The callback has each block with its number, and may abort. -/
def storeFor (x : FileInfo × σ) (field : UInt32) : Value → Option (FileInfo × σ)
  | .data b =>
    if field = 16 then
      (decodeBlock b).bind fun blk => (cb x.2 x.1.blocks.length blk).map fun s =>
        ({ x.1 with blocks := x.1.blocks ++ [blk] }, s)
    else (storeData x.1 field b).map (·, x.2)
  | v => (store x.1 field v).map (·, x.2)

/-- `bep_decode_file_info_cb`. Of `blocks` only the number is the decoder's. -/
def decodeFileInfoFor (s : σ) (b : Bytes) : Option (FileInfo × σ) :=
  readMessage (storeFor cb) (FileInfo.zero, s) b

/-- The loop of `bep_index_iter_next_cb`. -/
def iterLoopFor (s : σ) : Nat → Bytes → IndexIter × Option (FileInfo × σ)
  | 0, _ => (⟨[], false⟩, none)
  | fuel + 1, b =>
    match readTag b with
    | .tag field wt rest =>
      if field = 2 ∧ wt = wtLen then
        match readBytes rest with
        | none => (⟨b, true⟩, none)
        | some (d, rest) =>
          match decodeFileInfoFor cb s d with
          | none => (⟨rest, true⟩, none)
          | some x => (⟨rest, false⟩, some x)
      else match readValue wt rest with
        | none => (⟨b, true⟩, none)
        | some (_, rest) => iterLoopFor s fuel rest
    | _ => (⟨[], false⟩, none)

def iterNextFor (s : σ) (it : IndexIter) : IndexIter × Option (FileInfo × σ) :=
  if it.error || it.rest.isEmpty then (it, none) else iterLoopFor cb s it.rest.length it.rest

/-- The records that are delivered until the iterator returns 0, and its error flag then. -/
def iterAllFor : Nat → σ → IndexIter → List FileInfo × Bool
  | 0, _, it => ([], it.error)
  | fuel + 1, s, it =>
    match iterNextFor cb s it with
    | (it, none) => ([], it.error)
    | (it, some (fi, s)) => (fi :: (iterAllFor fuel s it).1, (iterAllFor fuel s it).2)

/-- The walk after `bep_index_iter_begin`. -/
def walkIndex (s : σ) (body : Bytes) : List FileInfo × Bool :=
  iterAllFor cb (body.length + 1) s ⟨body, false⟩

end Callback

/-! ## The fields -/

/-- How a body stops. -/
inductive Stop where
  | ended
  /-- A tag that is cut short or too long. -/
  | badTag
  | badValue
  deriving DecidableEq

/-- The records of a body, not decoded, up to where it stops. -/
inductive Entries : Bytes → List Bytes → Stop → Prop
  | ended {b} : readTag b = .eof → Entries b [] .ended
  | badTag {b} : readTag b = .error → Entries b [] .badTag
  | badValue {b field wt rest} : readTag b = .tag field wt rest → readValue wt rest = none →
      Entries b [] .badValue
  | entry {b rest d rest' ds stop} : readTag b = .tag 2 wtLen rest → readBytes rest = some (d, rest') →
      Entries rest' ds stop → Entries b (d :: ds) stop
  | other {b field wt rest v rest' ds stop} : readTag b = .tag field wt rest → ¬(field = 2 ∧ wt = wtLen) →
      readValue wt rest = some (v, rest') → Entries rest' ds stop → Entries b ds stop

/-- Every body has them. -/
theorem exists_entries (b : Bytes) : ∃ ds stop, Entries b ds stop := by
  induction hn : b.length using Nat.strong_induction_on generalizing b with
  | _ n ih =>
    cases htag : readTag b with
    | eof => exact ⟨[], .ended, .ended htag⟩
    | error => exact ⟨[], .badTag, .badTag htag⟩
    | tag field wt rest =>
      have hrest := length_readTag htag
      cases hval : readValue wt rest with
      | none => exact ⟨[], .badValue, .badValue htag hval⟩
      | some x =>
        obtain ⟨v, rest'⟩ := x
        have hrest' := length_readValue hval
        obtain ⟨ds, stop, h⟩ := ih rest'.length (by omega) rest' rfl
        by_cases hentry : field = 2 ∧ wt = wtLen
        · obtain ⟨rfl, rfl⟩ := hentry
          rw [readValue_len] at hval
          obtain ⟨⟨d, rest''⟩, hbytes, ⟨⟩⟩ := Option.map_eq_some_iff.mp hval
          exact ⟨d :: ds, stop, .entry htag hbytes h⟩
        · exact ⟨ds, stop, .other htag hentry hval h⟩

/-! ## The single pass -/

/-- Only a record counts. -/
theorem numFiles_noteField {field : UInt32} {wt : UInt64} {b rest : Bytes} {v : Value}
    (hentry : ¬(field = 2 ∧ wt = wtLen)) (hval : readValue wt b = some (v, rest)) (s : IndexSummary) :
    (noteField s field v).numFiles = s.numFiles := by
  cases v with
  | num n => rfl
  | fixed => rfl
  | data d =>
    have hne : field ≠ 2 := fun h2 => hentry ⟨h2, wiretype_of_data hval⟩
    rw [noteField, if_neg hne]
    split <;> rfl

theorem summary_entries {b : Bytes} {ds : List Bytes} {stop : Stop} (h : Entries b ds stop) (fuel : Nat)
    (hfuel : b.length ≤ fuel) (s : IndexSummary) :
    (readFields (fun s _ _ => some s) noteField fuel s b).1.numFiles = s.numFiles + ds.length ∧
      ((readFields (fun s _ _ => some s) noteField fuel s b).2 = true ↔ stop = .ended) := by
  induction h generalizing fuel s with
  | @ended b htag =>
    cases fuel with
    | zero => simp [readFields, List.length_eq_zero_iff.mp (Nat.le_zero.mp hfuel)]
    | succ fuel => simp [readFields, htag]
  | @badTag b htag =>
    cases fuel with
    | zero =>
      obtain rfl := List.length_eq_zero_iff.mp (Nat.le_zero.mp hfuel)
      cases htag
    | succ fuel => simp [readFields, htag]
  | @badValue b field wt rest htag hval =>
    have hrest := length_readTag htag
    obtain ⟨fuel, rfl⟩ : ∃ k, fuel = k + 1 := ⟨fuel - 1, by omega⟩
    simp [readFields, htag, hval]
  | @entry b rest d rest' ds stop htag hbytes _ ih =>
    have hrest := length_readTag htag
    have hrest' := length_readBytes hbytes
    obtain ⟨fuel, rfl⟩ : ∃ k, fuel = k + 1 := ⟨fuel - 1, by omega⟩
    obtain ⟨hnum, hok⟩ := ih fuel (by omega) { s with numFiles := s.numFiles + 1 }
    have hval : readValue wtLen rest = some (.data d, rest') := by
      rw [readValue_len, hbytes]
      rfl
    rw [readFields, htag]
    simp only [hval]
    refine ⟨?_, hok⟩
    rw [List.length_cons, Nat.add_comm ds.length, ← Nat.add_assoc]
    exact hnum
  | @other b field wt rest v rest' ds stop htag hentry hval _ ih =>
    have hrest := length_readTag htag
    have hrest' := length_readValue hval
    obtain ⟨fuel, rfl⟩ : ∃ k, fuel = k + 1 := ⟨fuel - 1, by omega⟩
    obtain ⟨hnum, hok⟩ := ih fuel (by omega) (noteField s field v)
    rw [numFiles_noteField hentry hval] at hnum
    rw [readFields, htag]
    simp only [hval]
    exact ⟨hnum, hok⟩

/-- **The single pass.** It counts the records, and returns 1 if the body ends after them. -/
theorem indexSummary_entries {body : Bytes} {ds : List Bytes} {stop : Stop} (h : Entries body ds stop) :
    (indexSummary body).1.numFiles = ds.length ∧ ((indexSummary body).2 = true ↔ stop = .ended) := by
  have hsum := summary_entries h body.length (Nat.le_refl _) ⟨.empty _, 0⟩
  rw [Nat.zero_add] at hsum
  exact hsum

/-! ## The walk -/

section Walk
variable {σ : Type*} (cb : σ → Nat → BlockInfo → Option σ)

/-- Records decoded one after the other, and whether all are. -/
def decodeAll : σ → List Bytes → List FileInfo × Bool
  | _, [] => ([], true)
  | s, d :: ds =>
    match decodeFileInfoFor cb s d with
    | none => ([], false)
    | some (fi, s) => (fi :: (decodeAll s ds).1, (decodeAll s ds).2)

theorem length_decodeAll {s : σ} {ds : List Bytes} (h : (decodeAll cb s ds).2 = true) :
    (decodeAll cb s ds).1.length = ds.length := by
  induction ds generalizing s with
  | nil => rfl
  | cons d ds ih =>
    rw [decodeAll] at h ⊢
    cases hd : decodeFileInfoFor cb s d with
    | none =>
      rw [hd] at h
      cases h
    | some x =>
      rw [hd] at h
      rw [List.length_cons, List.length_cons, ih h]

/-- What one call is for a body with these records. -/
def Delivers (s : σ) (b : Bytes) (stop : Stop) (r : IndexIter × Option (FileInfo × σ)) : List Bytes → Prop
  | [] => r.2 = none ∧ (r.1.error = true ↔ stop = .badValue)
  | d :: ds =>
    match decodeFileInfoFor cb s d with
    | none => r.2 = none ∧ r.1.error = true
    | some x => r.2 = some x ∧ r.1.error = false ∧ r.1.rest.length < b.length ∧ Entries r.1.rest ds stop

/-- **Step.** -/
theorem iterLoopFor_entries {b : Bytes} {ds : List Bytes} {stop : Stop} (h : Entries b ds stop) (s : σ)
    (fuel : Nat) (hfuel : b.length ≤ fuel) : Delivers cb s b stop (iterLoopFor cb s fuel b) ds := by
  induction h generalizing fuel with
  | @ended b htag =>
    cases fuel with
    | zero => simp [Delivers, iterLoopFor]
    | succ fuel => simp [Delivers, iterLoopFor, htag]
  | @badTag b htag =>
    cases fuel with
    | zero => simp [Delivers, iterLoopFor]
    | succ fuel => simp [Delivers, iterLoopFor, htag]
  | @badValue b field wt rest htag hval =>
    have hrest := length_readTag htag
    obtain ⟨fuel, rfl⟩ : ∃ k, fuel = k + 1 := ⟨fuel - 1, by omega⟩
    rw [iterLoopFor, htag]
    dsimp only
    by_cases hentry : field = 2 ∧ wt = wtLen
    · obtain ⟨rfl, rfl⟩ := hentry
      rw [readValue_len, Option.map_eq_none_iff] at hval
      simp [Delivers, hval]
    · simp [Delivers, hentry, hval]
  | @entry b rest d rest' ds stop htag hbytes hrec _ =>
    have hrest := length_readTag htag
    have hrest' := length_readBytes hbytes
    obtain ⟨fuel, rfl⟩ : ∃ k, fuel = k + 1 := ⟨fuel - 1, by omega⟩
    rw [iterLoopFor, htag]
    simp only [and_self, if_true, hbytes]
    rw [Delivers]
    cases hd : decodeFileInfoFor cb s d with
    | none => exact ⟨rfl, rfl⟩
    | some x => exact ⟨rfl, rfl, by dsimp only; omega, hrec⟩
  | @other b field wt rest v rest' ds stop htag hentry hval _ ih =>
    have hrest := length_readTag htag
    have hrest' := length_readValue hval
    obtain ⟨fuel, rfl⟩ : ∃ k, fuel = k + 1 := ⟨fuel - 1, by omega⟩
    rw [iterLoopFor, htag]
    simp only [if_neg hentry, hval]
    have hnext := ih fuel (by omega)
    cases ds with
    | nil => exact hnext
    | cons d ds =>
      rw [Delivers] at hnext ⊢
      cases hd : decodeFileInfoFor cb s d with
      | none =>
        rw [hd] at hnext
        exact hnext
      | some x =>
        rw [hd] at hnext
        obtain ⟨hsome, herr, hlen, hrec⟩ := hnext
        exact ⟨hsome, herr, by omega, hrec⟩

theorem iterNextFor_eq (s : σ) (rest : Bytes) :
    iterNextFor cb s ⟨rest, false⟩ = iterLoopFor cb s rest.length rest := by
  cases rest with
  | nil => rfl
  | cons c rest => rfl

/-- **Run.** -/
theorem iterAllFor_entries (ds : List Bytes) {stop : Stop} (fuel : Nat) (s : σ) (rest : Bytes)
    (h : Entries rest ds stop) (hfuel : rest.length < fuel) :
    (iterAllFor cb fuel s ⟨rest, false⟩).1 = (decodeAll cb s ds).1 ∧
      ((iterAllFor cb fuel s ⟨rest, false⟩).2 = true ↔ (decodeAll cb s ds).2 = false ∨ stop = .badValue) := by
  induction ds generalizing fuel s rest with
  | nil =>
    obtain ⟨fuel, rfl⟩ : ∃ k, fuel = k + 1 := ⟨fuel - 1, by omega⟩
    have hstep := iterLoopFor_entries cb h s rest.length (Nat.le_refl _)
    rw [iterAllFor, iterNextFor_eq]
    cases hr : iterLoopFor cb s rest.length rest with
    | mk it o =>
      rw [hr] at hstep
      obtain ⟨ho, herr⟩ := hstep
      obtain rfl : o = none := ho
      refine ⟨rfl, ?_⟩
      rw [decodeAll]
      simpa using herr
  | cons d ds ih =>
    obtain ⟨fuel, rfl⟩ : ∃ k, fuel = k + 1 := ⟨fuel - 1, by omega⟩
    have hstep := iterLoopFor_entries cb h s rest.length (Nat.le_refl _)
    rw [iterAllFor, iterNextFor_eq, decodeAll]
    rw [Delivers] at hstep
    cases hr : iterLoopFor cb s rest.length rest with
    | mk it o =>
      rw [hr] at hstep
      cases hd : decodeFileInfoFor cb s d with
      | none =>
        rw [hd] at hstep
        obtain ⟨ho, herr⟩ := hstep
        obtain rfl : o = none := ho
        exact ⟨rfl, by simpa using herr⟩
      | some x =>
        rw [hd] at hstep
        obtain ⟨ho, herr, hlen, hrec⟩ := hstep
        obtain rfl : o = some x := ho
        obtain ⟨rest', error⟩ := it
        obtain rfl : error = false := herr
        obtain ⟨hfiles, hflag⟩ := ih fuel x.2 rest' hrec (by dsimp only at hlen; omega)
        dsimp only
        rw [hfiles, hflag]
        exact ⟨rfl, Iff.rfl⟩

/-- **The walk.** It delivers the records up to the first that is not decoded. -/
theorem walkIndex_entries {body : Bytes} {ds : List Bytes} {stop : Stop} (h : Entries body ds stop) (s : σ) :
    (walkIndex cb s body).1 = (decodeAll cb s ds).1 ∧
      ((walkIndex cb s body).2 = true ↔ (decodeAll cb s ds).2 = false ∨ stop = .badValue) :=
  iterAllFor_entries cb ds (body.length + 1) s body h (Nat.lt_succ_self _)

end Walk

/-! ## The two together -/

section Both
variable {σ : Type*} (cb : σ → Nat → BlockInfo → Option σ)

/-- A body the single pass rejects sets the iterator's error flag, and where the flag is clear the
two agree on the number of records. -/
def Reported (s : σ) (body : Bytes) : Prop :=
  ((indexSummary body).2 = false → (walkIndex cb s body).2 = true) ∧
  ((walkIndex cb s body).2 = false → (walkIndex cb s body).1.length = (indexSummary body).1.numFiles)

/-- **Malformed bodies.** All are reported but those that stop at a tag behind records that can be
decoded. -/
theorem index_reports_iff (s : σ) (body : Bytes) : Reported cb s body ↔
    ¬ ∃ ds, Entries body ds .badTag ∧ (decodeAll cb s ds).2 = true := by
  constructor
  · rintro ⟨hreject, -⟩ ⟨ds, hentries, hall⟩
    have hsum := (indexSummary_entries hentries).2
    have hwalk := (walkIndex_entries cb hentries s).2
    have hok : (indexSummary body).2 = false := by
      rw [← Bool.not_eq_true, hsum]
      simp
    rw [hreject hok, hall] at hwalk
    simp at hwalk
  · intro hno
    obtain ⟨ds, stop, hentries⟩ := exists_entries body
    obtain ⟨hnum, hok⟩ := indexSummary_entries hentries
    obtain ⟨hfiles, hflag⟩ := walkIndex_entries cb hentries s
    constructor
    · intro hreject
      rw [hflag]
      cases hall : (decodeAll cb s ds).2 with
      | false => exact Or.inl rfl
      | true =>
        cases stop with
        | ended => simp [hreject] at hok
        | badTag => exact absurd ⟨ds, hentries, hall⟩ hno
        | badValue => exact Or.inr rfl
    · intro hclear
      rw [hclear] at hflag
      have hall : (decodeAll cb s ds).2 = true := by
        cases hall : (decodeAll cb s ds).2 with
        | false => simp [hall] at hflag
        | true => rfl
      rw [hfiles, hnum, length_decodeAll cb hall]

end Both

/-- A body that is one byte of a longer tag. -/
theorem cut_tag : (indexSummary [0x92]).2 = false ∧
    walkIndex (fun (_ : Unit) _ _ => some ()) () [0x92] = ([], false) :=
  ⟨rfl, rfl⟩

/-! ## The callback that keeps every block -/

theorem readMessage_map {α β : Type*} {store : α → UInt32 → Value → Option α}
    {store' : β → UInt32 → Value → Option β} (f : α → β)
    (hstore : ∀ a field v, store' (f a) field v = (store a field v).map f) (a : α) (b : Bytes) :
    readMessage store' (f a) b = (readMessage store a b).map f := by
  have hloop : ∀ (fuel : Nat) (s : Option α) (b : Bytes),
      readFields (fun s _ _ => if s.isSome then some s else none) (fun s fld v => s.bind (store' · fld v))
          fuel (s.map f) b =
        ((readFields (fun s _ _ => if s.isSome then some s else none) (fun s fld v => s.bind (store · fld v))
            fuel s b).1.map f,
          (readFields (fun s _ _ => if s.isSome then some s else none) (fun s fld v => s.bind (store · fld v))
            fuel s b).2) := by
    intro fuel
    induction fuel with
    | zero => exact fun s b => rfl
    | succ fuel ih =>
      intro s b
      rw [readFields, readFields]
      cases readTag b with
      | eof => rfl
      | error => rfl
      | tag field wt rest =>
        cases s with
        | none => rfl
        | some a =>
          simp only [Option.map_some, Option.isSome_some, if_true]
          cases readValue wt rest with
          | none => rfl
          | some x =>
            have hrec := ih (store a field x.1) x.2
            simp only [Option.bind_some, hstore]
            exact hrec
  have hrun := hloop b.length (some a) b
  rw [readMessage, readMessage]
  rw [Option.map_some] at hrun
  rw [hrun]
  cases readFields (fun s _ _ => if s.isSome then some s else none) (fun s fld v => s.bind (store · fld v))
    b.length (some a) b with
  | mk s ok =>
    cases ok with
    | true => rfl
    | false => rfl

theorem decodeFileInfoFor_unit (b : Bytes) :
    decodeFileInfoFor (fun (_ : Unit) _ _ => some ()) () b = (decodeFileInfoCb b).map (·, ()) := by
  refine readMessage_map (·, ()) ?_ FileInfo.zero b
  intro fi field v
  cases v with
  | num n => rfl
  | fixed => rfl
  | data d =>
    rw [storeFor, store]
    dsimp only
    by_cases h16 : field = 16
    · subst h16
      simp only [if_true, storeData]
      cases decodeBlock d with
      | none => rfl
      | some blk => rfl
    · rw [if_neg h16]

theorem iterLoop_eq (fuel : Nat) (b : Bytes) :
    iterLoop fuel b = ((iterLoopFor (fun (_ : Unit) _ _ => some ()) () fuel b).1,
      (iterLoopFor (fun (_ : Unit) _ _ => some ()) () fuel b).2.map Prod.fst) := by
  induction fuel generalizing b with
  | zero => rfl
  | succ fuel ih =>
    rw [iterLoop, iterLoopFor]
    cases readTag b with
    | eof => rfl
    | error => rfl
    | tag field wt rest =>
      dsimp only
      split
      · cases readBytes rest with
        | none => rfl
        | some x =>
          dsimp only
          rw [decodeFileInfoFor_unit]
          cases decodeFileInfoCb x.1 with
          | none => rfl
          | some fi => rfl
      · cases readValue wt rest with
        | none => rfl
        | some x => exact ih x.2

/-- **The iterator of a whole record.** It is the one with a callback that refuses nothing. -/
theorem readIndex_eq (body : Bytes) : readIndex body = walkIndex (fun (_ : Unit) _ _ => some ()) () body := by
  have hall : ∀ (fuel : Nat) (it : IndexIter),
      iterAll fuel it = iterAllFor (fun (_ : Unit) _ _ => some ()) fuel () it := by
    intro fuel
    induction fuel with
    | zero => exact fun it => rfl
    | succ fuel ih =>
      intro it
      rw [iterAll, iterAllFor, iterNext, iterNextFor]
      by_cases hend : (it.error || it.rest.isEmpty) = true
      · rw [if_pos hend, if_pos hend]
      · rw [if_neg hend, if_neg hend, iterLoop_eq]
        cases iterLoopFor (fun (_ : Unit) _ _ => some ()) () it.rest.length it.rest with
        | mk it o =>
          cases o with
          | none => rfl
          | some x => simp only [Option.map_some, ih]
  exact hall (body.length + 1) ⟨body, false⟩

end Bep

end Amisync
