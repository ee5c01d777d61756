import Amisync.Dos
import Amisync.Messages

/-!
# Serving a block (`serve_request`, `folder_read_block`)

What a peer's Request is answered with.

* `seek`, `dosRead`: the two calls the offset and the size go through.
* `readLoop_eq`: short reads are put together to what is there.
* `folderReadBlock_eq`, `exact_iff`: what a block that was read in full is, and when
  it is the one that was asked for.
* `serve_exact_iff`: when what is sent is the range that was asked for.
-/

namespace Amisync.Serve

open Messages

def bepErrNone : Int32 := 0
def bepErrGeneric : Int32 := 1
def bepErrNoSuchFile : Int32 := 2

/-! ## Reading -/

/-- `Read` at a place with `rest` before the end: an error, or at least a byte unless at the end. -/
def dosRead (answer : Option Nat) (rest : Bytes) (want : Nat) : Option Bytes :=
  answer.map fun more => rest.take (min (more + 1) want)

/-- The loop that fills the block; `reads` answers the calls in their order. -/
def readLoop (reads : Nat → Option Nat) (size : Nat) : Nat → Nat → Bytes → Bytes → Option Bytes
  | 0, _, got, _ => some got
  | fuel + 1, k, got, rest =>
    if got.length < size then
      match dosRead (reads k) rest (size - got.length) with
      | none => none
      | some [] => some got
      | some d => readLoop reads size fuel (k + 1) (got ++ d) (rest.drop d.length)
    else some got

/-- What the worker and the system give for a Request. -/
structure Env where
  folders : List (CString 63 × Bytes)
  ignored : Nat → Name → Bool
  alloc : Bool
  fs : Fs
  fold : Path → Path
  /-- Whether the file system seeks past the end of a file. -/
  pastEnd : Bool

/-- `Seek(fh, (LONG)offset, OFFSET_BEGINNING)` in a file of `length` bytes. -/
def seek (env : Env) (length : Nat) (offset : Int64) : Option Nat :=
  let pos := offset.toInt32.toInt
  if pos < 0 ∨ (length < pos ∧ env.pastEnd = false) then none else some pos.toNat

/-- `Open` on the local name below the folder. -/
def opened (env : Env) (path : Bytes) (name : Name) : Option Bytes :=
  match (toLocal name).bind (joinFull path) with
  | none => none
  | some full =>
    match env.fs.obj env.fold full with
    | some (.file data _ _) => some data
    | _ => none

/-- `none` is the error `-1`; otherwise the bytes in the buffer. -/
def folderReadBlock (env : Env) (reads : Nat → Option Nat) (path : Bytes) (name : Name)
    (offset : Int64) (size : Nat) : Option Bytes :=
  match opened env path name with
  | none => none
  | some data =>
    match seek env data.length offset with
    | none => none
    | some pos => readLoop reads size size 0 [] (data.drop pos)

def syncFolderIndex (env : Env) (id : CString 63) : Option Nat :=
  env.folders.findIdx? fun f => f.1 = id

/-! ## Answering -/

def refused (rq : Request) (code : Int32) : Response := { Response.zero with id := rq.id, code := code }

/-- Folder, size, name and rules are in order. -/
def admitted (env : Env) (i : Nat) (rq : Request) : Bool :=
  decide (0 ≤ rq.size.toInt ∧ rq.size.toInt ≤ folderMaxBlockSize) && pathNameSafe rq.name.bytes &&
    !env.ignored i rq.name.bytes

def serveRequest (env : Env) (reads : Nat → Option Nat) (body : Bytes) : Option Response :=
  match decodeRequest body with
  | none => none
  | some rq =>
    match syncFolderIndex env rq.folder with
    | none => some (refused rq bepErrNoSuchFile)
    | some i =>
      if !admitted env i rq then some (refused rq bepErrNoSuchFile)
      else if !env.alloc then some (refused rq bepErrGeneric)
      else
        let path := (env.folders.getD i (.empty _, [])).2
        match folderReadBlock env reads path rq.name.bytes rq.offset rq.size.toInt.toNat with
        | none => some (refused rq bepErrNoSuchFile)
        | some d =>
          if (d.length : Int) ≠ rq.size.toInt then some (refused rq bepErrNoSuchFile)
          else some ⟨rq.id, d, bepErrNone⟩

/-! ## The loop -/

theorem dosRead_eq_some {answer : Option Nat} {rest d : Bytes} {want : Nat}
    (h : dosRead answer rest want = some d) :
    d = rest.take d.length ∧ d.length ≤ want ∧ (d = [] → want = 0 ∨ rest = []) := by
  obtain ⟨more, -, rfl⟩ := Option.map_eq_some_iff.mp h
  refine ⟨?_, ?_, ?_⟩
  · rw [List.length_take, List.take_eq_take_iff]
    omega
  · rw [List.length_take]
    omega
  · intro hnil
    rw [List.take_eq_nil_iff] at hnil
    rcases hnil with hz | hr
    · exact Or.inl (by omega)
    · exact Or.inr hr

/-- **Short reads.** Unless a call fails, the buffer ends up with what there is of the range. -/
theorem readLoop_eq {reads : Nat → Option Nat} {size fuel k : Nat} {got rest d : Bytes}
    (hfuel : size ≤ got.length + fuel) (h : readLoop reads size fuel k got rest = some d) :
    d = got ++ rest.take (size - got.length) := by
  induction fuel generalizing k got rest with
  | zero =>
    obtain rfl := Option.some.inj h
    rw [Nat.sub_eq_zero_of_le (by omega), List.take_zero, List.append_nil]
  | succ fuel ih =>
    rw [readLoop] at h
    split at h
    · rename_i hmore
      split at h
      · simp at h
      · rename_i hread
        obtain ⟨-, -, hend⟩ := dosRead_eq_some hread
        rcases hend rfl with hz | rfl
        · omega
        · obtain rfl := Option.some.inj h
          rw [List.take_nil, List.append_nil]
      · rename_i c hne hread
        obtain ⟨hc, hle, -⟩ := dosRead_eq_some hread
        have hpos : 0 < c.length := List.length_pos_of_ne_nil (fun e => hne (e ▸ rfl))
        rw [ih (by rw [List.length_append]; omega) h, List.append_assoc, List.length_append]
        have hsplit : rest.take (size - got.length) =
            c ++ (rest.drop c.length).take (size - (got.length + c.length)) := by
          have hcut : size - got.length = c.length + (size - (got.length + c.length)) := by omega
          rw [hcut, List.take_add, ← hc]
        rw [hsplit]
    · obtain rfl := Option.some.inj h
      rw [Nat.sub_eq_zero_of_le (by omega), List.take_zero, List.append_nil]

/-- Without a failing call the loop comes to its end. -/
theorem readLoop_isSome {reads : Nat → Option Nat} (hok : ∀ k, (reads k).isSome) (size fuel k : Nat)
    (got rest : Bytes) : (readLoop reads size fuel k got rest).isSome := by
  induction fuel generalizing k got rest with
  | zero => rfl
  | succ fuel ih =>
    rw [readLoop]
    split
    · obtain ⟨more, hmore⟩ := Option.isSome_iff_exists.mp (hok k)
      rw [hmore, dosRead, Option.map_some]
      split
      · rename_i hnone
        simp at hnone
      · rfl
      · exact ih ..
    · rfl

/-! ## What is sent -/

/-- `out` are the bytes `[offset, offset + size)` of the file. -/
def Exact (data : Bytes) (offset : Int) (size : Nat) (out : Bytes) : Prop :=
  out.length = size ∧ ∀ i < size, 0 ≤ offset + i ∧ data[(offset + i).toNat]? = out[i]?

/-- The file a Request names. -/
def fileOf (env : Env) (rq : Request) : Option Bytes :=
  match syncFolderIndex env rq.folder with
  | none => none
  | some i => opened env (env.folders.getD i (.empty _, [])).2 rq.name.bytes

/-- A good answer: the range that was asked for, or an error. -/
def Answers (env : Env) (rq : Request) (rs : Response) : Prop :=
  rs.id = rq.id ∧
  (rs.code = bepErrNone → ∃ data, fileOf env rq = some data ∧
    Exact data rq.offset.toInt rq.size.toInt.toNat rs.data) ∧
  (rs.code ≠ bepErrNone → rs.code = bepErrGeneric ∨ rs.code = bepErrNoSuchFile)

/-- Nothing stands between the Request and the file. -/
def Reaches (env : Env) (rq : Request) (data : Bytes) : Prop :=
  (∃ i, syncFolderIndex env rq.folder = some i ∧ admitted env i rq = true) ∧ env.alloc = true ∧
    fileOf env rq = some data

/-- Where the low half of the offset leads to: nowhere in the file, or to the same bytes. -/
def Harmless (data : Bytes) (offset : Int64) (size : Nat) : Prop :=
  offset.toInt32.toInt = offset.toInt ∨ size = 0 ∨ offset.toInt32.toInt < 0 ∨
    data.length < offset.toInt32.toInt + size ∨
    ∀ i < size, 0 ≤ offset.toInt + i ∧
      data[(offset.toInt + i).toNat]? = data[(offset.toInt32.toInt + i).toNat]?

theorem answers_refused (env : Env) (rq : Request) {code : Int32}
    (h : code = bepErrGeneric ∨ code = bepErrNoSuchFile) : Answers env rq (refused rq code) := by
  refine ⟨rfl, ?_, fun _ => h⟩
  rintro (rfl : code = bepErrNone)
  rcases h with h | h <;> exact absurd h (by decide)

/-- A block that was read in full is the one at the low half of the offset. -/
theorem folderReadBlock_eq {env : Env} {reads : Nat → Option Nat} {path : Bytes} {name : Name}
    {offset : Int64} {size : Nat} {d : Bytes}
    (h : folderReadBlock env reads path name offset size = some d) :
    ∃ data, opened env path name = some data ∧ 0 ≤ offset.toInt32.toInt ∧
      d = (data.drop offset.toInt32.toInt.toNat).take size := by
  rw [folderReadBlock] at h
  cases hopen : opened env path name with
  | none => simp [hopen] at h
  | some data =>
    rw [hopen] at h
    dsimp only at h
    rw [seek] at h
    split at h
    · simp at h
    · rename_i pos hpos
      split at hpos
      · simp at hpos
      · rename_i hin
        obtain rfl := Option.some.inj hpos
        have hd := readLoop_eq (by simp) h
        rw [List.nil_append, List.length_nil, Nat.sub_zero] at hd
        exact ⟨data, rfl, by omega, hd⟩

/-- With reads that do not fail, a range that lies in the file is read. -/
theorem folderReadBlock_of_inside {env : Env} {path : Bytes} {name : Name} {offset : Int64}
    {size : Nat} {data : Bytes} (hopen : opened env path name = some data)
    (hpos : 0 ≤ offset.toInt32.toInt) (hin : offset.toInt32.toInt + size ≤ data.length)
    {reads : Nat → Option Nat} (hreads : ∀ k, (reads k).isSome) :
    folderReadBlock env reads path name offset size =
      some ((data.drop offset.toInt32.toInt.toNat).take size) := by
  have hseek : seek env data.length offset = some offset.toInt32.toInt.toNat := by
    rw [seek, if_neg (by omega)]
  rw [folderReadBlock, hopen]
  dsimp only
  rw [hseek]
  dsimp only
  obtain ⟨d, hd⟩ := Option.isSome_iff_exists.mp
    (readLoop_isSome hreads size size 0 [] (data.drop offset.toInt32.toInt.toNat))
  have hdeq := readLoop_eq (by simp) hd
  rw [List.nil_append, List.length_nil, Nat.sub_zero] at hdeq
  rw [hd, hdeq]

/-- What is read at the low half of the offset is the range exactly when the low half does no harm. -/
theorem exact_iff {data : Bytes} {offset : Int64} {size : Nat} (hpos : 0 ≤ offset.toInt32.toInt)
    (hin : offset.toInt32.toInt + size ≤ data.length) :
    Exact data offset.toInt size ((data.drop offset.toInt32.toInt.toNat).take size) ↔
      Harmless data offset size := by
  have hlen : ((data.drop offset.toInt32.toInt.toNat).take size).length = size := by
    rw [List.length_take, List.length_drop]
    omega
  have hget : ∀ i < size, ((data.drop offset.toInt32.toInt.toNat).take size)[i]? =
      data[(offset.toInt32.toInt + i).toNat]? := by
    intro i hi
    rw [List.getElem?_take_of_lt hi, List.getElem?_drop]
    congr 1
    omega
  constructor
  · rintro ⟨-, h⟩
    refine Or.inr (Or.inr (Or.inr (Or.inr ?_)))
    intro i hi
    obtain ⟨h0, heq⟩ := h i hi
    exact ⟨h0, heq.trans (hget i hi)⟩
  · intro h
    refine ⟨hlen, ?_⟩
    intro i hi
    rw [hget i hi]
    rcases h with h | h | h | h | h
    · rw [← h]
      exact ⟨by omega, rfl⟩
    · omega
    · omega
    · omega
    · exact h i hi

/-- **Serving.** Every schedule of reads ends in the requested range or an error exactly when the
cut of the offset to 32 bits does no harm. -/
theorem serve_exact_iff {env : Env} {body : Bytes} {rq : Request}
    (hdec : decodeRequest body = some rq) :
    (∀ reads, ∃ rs, serveRequest env reads body = some rs ∧ Answers env rq rs) ↔
      ∀ data, Reaches env rq data → Harmless data rq.offset rq.size.toInt.toNat := by
  constructor
  · rintro h data ⟨⟨i, hi, hadm⟩, halloc, hfile⟩
    by_cases hpos : 0 ≤ rq.offset.toInt32.toInt
    · by_cases hin : rq.offset.toInt32.toInt + rq.size.toInt.toNat ≤ data.length
      · obtain ⟨rs, hrs, hans⟩ := h fun _ => some 0
        have hopen : opened env (env.folders.getD i (.empty _, [])).2 rq.name.bytes = some data := by
          rw [fileOf, hi] at hfile
          exact hfile
        have hsize : 0 ≤ rq.size.toInt := by
          simp only [admitted, Bool.and_eq_true, decide_eq_true_eq] at hadm
          exact hadm.1.1.1
        have hread := folderReadBlock_of_inside hopen hpos hin
          (show ∀ k : Nat, ((fun _ => some 0 : Nat → Option Nat) k).isSome = true from fun _ => rfl)
        have hlen : ((data.drop rq.offset.toInt32.toInt.toNat).take rq.size.toInt.toNat).length =
            rq.size.toInt.toNat := by
          rw [List.length_take, List.length_drop]
          omega
        rw [serveRequest, hdec] at hrs
        dsimp only at hrs
        rw [hi] at hrs
        dsimp only at hrs
        rw [hadm, halloc, hread] at hrs
        dsimp only at hrs
        rw [hlen, if_neg (by simp), if_neg (by simp), if_neg (by omega)] at hrs
        obtain rfl := Option.some.inj hrs
        obtain ⟨data', hfile', hexact⟩ := hans.2.1 rfl
        obtain rfl := Option.some.inj (hfile.symm.trans hfile')
        exact (exact_iff hpos hin).mp hexact
      · exact Or.inr (Or.inr (Or.inr (Or.inl (by omega))))
    · exact Or.inr (Or.inr (Or.inl (by omega)))
  · intro h reads
    rw [serveRequest, hdec]
    dsimp only
    cases hi : syncFolderIndex env rq.folder with
    | none => exact ⟨_, rfl, answers_refused env rq (Or.inr rfl)⟩
    | some i =>
      dsimp only
      split
      · exact ⟨_, rfl, answers_refused env rq (Or.inr rfl)⟩
      · rename_i hadm
        split
        · exact ⟨_, rfl, answers_refused env rq (Or.inl rfl)⟩
        · rename_i halloc
          split
          · exact ⟨_, rfl, answers_refused env rq (Or.inr rfl)⟩
          · rename_i d hread
            split
            · exact ⟨_, rfl, answers_refused env rq (Or.inr rfl)⟩
            · rename_i hfull
              obtain ⟨data, hopen, hpos, rfl⟩ := folderReadBlock_eq hread
              have hfile : fileOf env rq = some data := by
                rw [fileOf, hi]
                exact hopen
              have hharm := h data ⟨⟨i, hi, by simpa using hadm⟩, by simpa using halloc, hfile⟩
              refine ⟨_, rfl, rfl, fun _ => ⟨data, hfile, ?_⟩, fun hc => absurd rfl hc⟩
              rw [List.length_take, List.length_drop] at hfull
              by_cases hz : rq.size.toInt.toNat = 0
              · rw [hz]
                exact ⟨rfl, fun i hi => absurd hi (Nat.not_lt_zero i)⟩
              · exact (exact_iff hpos (by omega)).mpr hharm

/-! ## Beyond 32 bits -/

/-- `s` -/
def sampleFolder : CString 63 := .ofBytes _ [115]

/-- One folder on a volume, with one file of three bytes. -/
def sampleEnv : Env where
  folders := [(sampleFolder, [118, 58])]
  ignored := fun _ _ => false
  alloc := true
  fs := fun p => if p = [118, 58, 102] then some (.file [10, 20, 30] 0 0) else none
  fold := id
  pastEnd := false

/-- One byte of the file, at `offset`. -/
def sampleRequest (offset : Int64) : Request :=
  { Request.zero with folder := sampleFolder, name := .ofBytes _ [102], offset := offset, size := 1 }

theorem decode_sampleRequest (offset : Int64) :
    decodeRequest (requestBytes (sampleRequest offset)) = some (sampleRequest offset) :=
  decodeRequest_bytes (Or.inl rfl)

/-- The second byte is sent as it is. -/
theorem serve_exact_sample :
    ∃ rs, serveRequest sampleEnv (fun _ => some 0) (requestBytes (sampleRequest 1)) = some rs ∧
      Answers sampleEnv (sampleRequest 1) rs :=
  (serve_exact_iff (decode_sampleRequest 1)).mpr (fun _ _ => Or.inl (by decide)) fun _ => some 0

/-- At 4 GiB and one byte a file of three bytes has nothing to send, and its second byte is sent. -/
theorem serve_wraps : ¬ ∀ (env : Env) (body : Bytes) (rq : Request), decodeRequest body = some rq →
    ∀ reads, ∃ rs, serveRequest env reads body = some rs ∧ Answers env rq rs := by
  intro h
  obtain ⟨rs, hrs, hans⟩ := h sampleEnv _ _ (decode_sampleRequest 4294967297) fun _ => some 0
  have hsent : serveRequest sampleEnv (fun _ => some 0) (requestBytes (sampleRequest 4294967297)) =
      some ⟨0, [20], bepErrNone⟩ := by
    rw [serveRequest, decode_sampleRequest]
    decide
  rw [hsent] at hrs
  obtain rfl := Option.some.inj hrs
  obtain ⟨data, hfile, hexact⟩ := hans.2.1 rfl
  have hdata : fileOf sampleEnv (sampleRequest 4294967297) = some [10, 20, 30] := by
    decide
  rw [hdata] at hfile
  obtain rfl := Option.some.inj hfile
  exact absurd (hexact.2 0 (by decide)).2 (by decide)

end Amisync.Serve
