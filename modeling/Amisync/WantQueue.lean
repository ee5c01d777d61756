import Amisync.Incoming
import Amisync.Lib.Buffer

/-!
# The want queue in memory (`syncmodel.c`)

The queue of downloads as the C structures hold it: a counter and a fixed array of
entries, and a pool of block hashes the entries point into.

* `SyncModel`, `syncWantPushAgain`, `syncWantPop`, …: the operations on the arrays.
* `Entry`, `Spec`: a stack of entries that own their hashes.
* `Holds`: an entry starts in the pool where the hashes of those below it end.
* `wantQueue_refines`: over any sequence of operations the arrays answer as the stack does.
-/

namespace Amisync.WantQueue

open Amisync.Incoming

/-! ## The arrays -/

structure WantFile where
  folderIdx : Int
  fi : FileMeta
  hashOff : Int
  numBlocks : Int
  conflict : Int
  attempts : Int
  deriving DecidableEq

/-- What `memset` leaves. -/
def WantFile.zero : WantFile := ⟨0, .zero, 0, 0, 0, 0⟩

structure SyncModel where
  numWant : Int
  hashUsed : Int
  want : List WantFile
  wantHashes : List Hash

def syncInit : SyncModel where
  numWant := 0
  hashUsed := 0
  want := List.replicate syncMaxWant .zero
  wantHashes := List.replicate syncHashPool zeroHash

def SyncModel.slot (m : SyncModel) (i : Int) : WantFile := m.want.getD i.toNat .zero

/-- The `n` hashes a pointer leads to. -/
def pointed (hashes : Nat → Hash) (n : Int) : List Hash := (List.range n.toNat).map hashes

def syncWantPushAgain (m : SyncModel) (folderIdx : Int) (fi : Info) (hashes : Nat → Hash)
    (numBlocks conflict attempts : Int) : Bool × SyncModel :=
  if syncMaxWant ≤ m.numWant then (false, m)
  else if numBlocks < 0 ∨ syncHashPool - m.hashUsed < numBlocks then (false, m)
  else
    let t : WantFile := ⟨folderIdx, metaFromFi fi, m.hashUsed, numBlocks, conflict, attempts⟩
    (true,
      { numWant := m.numWant + 1
        hashUsed := m.hashUsed + numBlocks
        want := m.want.set m.numWant.toNat t
        wantHashes := if 0 < numBlocks then
            Buffer.write m.wantHashes m.hashUsed.toNat (pointed hashes numBlocks)
          else m.wantHashes })

def syncWantPush (m : SyncModel) (folderIdx : Int) (fi : Info) (hashes : Nat → Hash)
    (numBlocks conflict : Int) : Bool × SyncModel :=
  syncWantPushAgain m folderIdx fi hashes numBlocks conflict 0

def syncWantHas (m : SyncModel) (folderIdx : Int) (name : Bytes) : Bool :=
  (m.want.take m.numWant.toNat).any fun t => t.folderIdx = folderIdx && t.fi.name.bytes = name

/-- What `strncpy` and the closing NUL leave of a name in `cap` bytes. -/
def copied (name : Bytes) (cap : Int) : Bytes := name.take (cap.toNat - 1)

/-- The two out-parameters; either may be a null pointer. -/
def syncWantPeek (m : SyncModel) (toFolder toName : Bool) (cap : Int) :
    Option (Option Int × Option Bytes) :=
  if m.numWant = 0 then none
  else
    let t := m.slot (m.numWant - 1)
    some (if toFolder then some t.folderIdx else none,
      if toName ∧ 0 < cap then some (copied t.fi.name.bytes cap) else none)

/-- The entry, the hashes copied out (to a pointer that may be null), and the queue after. -/
def syncWantPop (m : SyncModel) (toHashes : Bool) (cap : Int) :
    Option (WantFile × List Hash) × SyncModel :=
  if m.numWant = 0 then (none, m)
  else
    let t := m.slot (m.numWant - 1)
    let ncopy := if t.numBlocks < cap then t.numBlocks else cap
    let out := if 0 < ncopy ∧ toHashes then
        Buffer.read m.wantHashes t.hashOff.toNat ncopy.toNat
      else []
    (some (t, out), { m with numWant := m.numWant - 1, hashUsed := t.hashOff })

/-! ## Runs -/

inductive Op where
  | push (folderIdx : Int) (fi : Info) (hashes : Nat → Hash) (numBlocks conflict : Int)
  | pushAgain (folderIdx : Int) (fi : Info) (hashes : Nat → Hash)
      (numBlocks conflict attempts : Int)
  | has (folderIdx : Int) (name : Bytes)
  | peek (toFolder toName : Bool) (cap : Int)
  | pop (toHashes : Bool) (cap : Int)

/-- What a popped entry says for itself, apart from where its hashes were. -/
structure Popped where
  folderIdx : Int
  fi : FileMeta
  numBlocks : Int
  conflict : Int
  attempts : Int
  hashes : List Hash
  deriving DecidableEq

inductive Answer where
  | pushed (ok : Bool)
  | has (found : Bool)
  | peeked (top : Option (Option Int × Option Bytes))
  | popped (top : Option Popped)
  deriving DecidableEq

def popped (p : WantFile × List Hash) : Popped :=
  ⟨p.1.folderIdx, p.1.fi, p.1.numBlocks, p.1.conflict, p.1.attempts, p.2⟩

def step (m : SyncModel) : Op → Answer × SyncModel
  | .push folderIdx fi hashes numBlocks conflict =>
    let r := syncWantPush m folderIdx fi hashes numBlocks conflict
    (.pushed r.1, r.2)
  | .pushAgain folderIdx fi hashes numBlocks conflict attempts =>
    let r := syncWantPushAgain m folderIdx fi hashes numBlocks conflict attempts
    (.pushed r.1, r.2)
  | .has folderIdx name => (.has (syncWantHas m folderIdx name), m)
  | .peek toFolder toName cap => (.peeked (syncWantPeek m toFolder toName cap), m)
  | .pop toHashes cap =>
    let r := syncWantPop m toHashes cap
    (.popped (r.1.map popped), r.2)

/-- The answers of a run, and where it leads, for the arrays and for the stack alike. -/
def runWith {σ : Type} (step : σ → Op → Answer × σ) (s : σ) : List Op → List Answer × σ
  | [] => ([], s)
  | op :: ops =>
    let r := step s op
    let rest := runWith step r.2 ops
    (r.1 :: rest.1, rest.2)

/-! ## A stack of entries -/

/-- A queued download that owns its hashes. -/
structure Entry where
  folderIdx : Int
  fi : FileMeta
  hashes : List Hash
  conflict : Int
  attempts : Int

namespace Spec

/-- The hashes all entries own together. -/
def load (q : List Entry) : Nat := (q.map fun e => e.hashes.length).sum

def refuses (q : List Entry) (numBlocks : Int) : Prop :=
  syncMaxWant ≤ q.length ∨ numBlocks < 0 ∨ syncHashPool < load q + numBlocks

instance (q : List Entry) (numBlocks : Int) : Decidable (refuses q numBlocks) :=
  inferInstanceAs (Decidable (_ ∨ _))

def push (q : List Entry) (numBlocks : Int) (e : Entry) : Answer × List Entry :=
  if refuses q numBlocks then (.pushed false, q) else (.pushed true, e :: q)

def peeked (toFolder toName : Bool) (cap : Int) (e : Entry) : Option Int × Option Bytes :=
  (if toFolder then some e.folderIdx else none,
    if toName ∧ 0 < cap then some (copied e.fi.name.bytes cap) else none)

/-- The first `cap` hashes of the entry, where there is a place for them. -/
def popped (toHashes : Bool) (cap : Int) (e : Entry) : Popped :=
  ⟨e.folderIdx, e.fi, e.hashes.length, e.conflict, e.attempts,
    if toHashes then e.hashes.take cap.toNat else []⟩

def step (q : List Entry) : Op → Answer × List Entry
  | .push folderIdx fi hashes numBlocks conflict =>
    push q numBlocks ⟨folderIdx, metaFromFi fi, pointed hashes numBlocks, conflict, 0⟩
  | .pushAgain folderIdx fi hashes numBlocks conflict attempts =>
    push q numBlocks ⟨folderIdx, metaFromFi fi, pointed hashes numBlocks, conflict, attempts⟩
  | .has folderIdx name =>
    (.has (q.any fun e => e.folderIdx = folderIdx && e.fi.name.bytes = name), q)
  | .peek toFolder toName cap => (.peeked (q.head?.map (peeked toFolder toName cap)), q)
  | .pop toHashes cap => (.popped (q.head?.map (popped toHashes cap)), q.tail)

end Spec

/-! ## The stack in the arrays -/

/-- The entry as it is queued when the pool is filled up to `off`. -/
def Entry.slot (e : Entry) (off : Nat) : WantFile :=
  ⟨e.folderIdx, e.fi, off, e.hashes.length, e.conflict, e.attempts⟩

/-- The used part of the array, bottom first: each entry starts where those below it end. -/
def slots : List Entry → List WantFile
  | [] => []
  | e :: q => slots q ++ [e.slot (Spec.load q)]

/-- The used part of the pool. -/
def pooled : List Entry → List Hash
  | [] => []
  | e :: q => pooled q ++ e.hashes

structure Holds (m : SyncModel) (q : List Entry) : Prop where
  num : m.numWant = q.length
  room : q.length ≤ syncMaxWant
  used : m.hashUsed = Spec.load q
  fits : Spec.load q ≤ syncHashPool
  wantLength : m.want.length = syncMaxWant
  poolLength : m.wantHashes.length = syncHashPool
  slots : m.want.take q.length = slots q
  pool : m.wantHashes.take (Spec.load q) = pooled q

@[simp] theorem Spec.load_nil : Spec.load [] = 0 := rfl

@[simp] theorem Spec.load_cons (e : Entry) (q : List Entry) :
    Spec.load (e :: q) = e.hashes.length + Spec.load q := by
  simp [Spec.load]

@[simp] theorem length_slots (q : List Entry) : (slots q).length = q.length := by
  induction q with
  | nil => rfl
  | cons e q ih => simp [slots, ih]

@[simp] theorem length_pooled (q : List Entry) : (pooled q).length = Spec.load q := by
  induction q with
  | nil => rfl
  | cons e q ih =>
    rw [pooled, List.length_append, ih, Spec.load_cons]
    omega

theorem holds_init : Holds syncInit [] where
  num := rfl
  room := Nat.zero_le _
  used := rfl
  fits := Nat.zero_le _
  wantLength := List.length_replicate
  poolLength := List.length_replicate
  slots := rfl
  pool := rfl

theorem length_pointed (hashes : Nat → Hash) (n : Int) : (pointed hashes n).length = n.toNat := by
  simp [pointed]

theorem take_succ_set {α : Type} {l : List α} {n : Nat} (x : α) (h : n < l.length) :
    (l.set n x).take (n + 1) = l.take n ++ [x] := by
  rw [List.take_add_one, List.getElem?_set_self h, List.take_set_of_le (Nat.le_refl n)]
  rfl

/-! ## Each operation -/

section
variable {m : SyncModel} {q : List Entry}

/-- An entry that fits goes to the top of both. -/
theorem holds_push (h : Holds m q) (e : Entry) (hroom : q.length < syncMaxWant)
    (hfits : Spec.load (e :: q) ≤ syncHashPool) :
    Holds
      { numWant := m.numWant + 1
        hashUsed := m.hashUsed + e.hashes.length
        want := m.want.set m.numWant.toNat (e.slot (Spec.load q))
        wantHashes := Buffer.write m.wantHashes m.hashUsed.toNat e.hashes } (e :: q) := by
  have hn : m.numWant.toNat = q.length := by
    rw [h.num]
    rfl
  have hu : m.hashUsed.toNat = Spec.load q := by
    rw [h.used]
    rfl
  rw [Spec.load_cons] at hfits
  refine ⟨?_, hroom, ?_, ?_, ?_, ?_, ?_, ?_⟩
  · dsimp only
    rw [h.num, List.length_cons]
    omega
  · dsimp only
    rw [h.used, Spec.load_cons]
    omega
  · rw [Spec.load_cons]
    exact hfits
  · dsimp only
    rw [List.length_set]
    exact h.wantLength
  · dsimp only
    rw [hu, Buffer.length_write (by rw [h.poolLength]; omega)]
    exact h.poolLength
  · dsimp only
    rw [hn, List.length_cons, take_succ_set _ (by rw [h.wantLength]; exact hroom), h.slots]
    rfl
  · dsimp only
    rw [hu, Spec.load_cons, Nat.add_comm, Buffer.take_write_end (by rw [h.poolLength]; omega), h.pool]
    rfl

/-- What the code refuses. -/
def Refused (m : SyncModel) (n : Int) : Prop :=
  syncMaxWant ≤ m.numWant ∨ n < 0 ∨ syncHashPool - m.hashUsed < n

theorem pushAgain_of_refused {n : Int} (h : Refused m n) (folderIdx : Int) (fi : Info)
    (hashes : Nat → Hash) (conflict attempts : Int) :
    syncWantPushAgain m folderIdx fi hashes n conflict attempts = (false, m) := by
  rw [syncWantPushAgain]
  split
  · rfl
  · rename_i hfull
    rw [if_pos (h.resolve_left hfull)]

theorem pushAgain_of_accepted {n : Int} (h : ¬ Refused m n) (folderIdx : Int) (fi : Info)
    (hashes : Nat → Hash) (conflict attempts : Int) :
    syncWantPushAgain m folderIdx fi hashes n conflict attempts =
      (true,
        { numWant := m.numWant + 1
          hashUsed := m.hashUsed + n
          want := m.want.set m.numWant.toNat
            ⟨folderIdx, metaFromFi fi, m.hashUsed, n, conflict, attempts⟩
          wantHashes := Buffer.write m.wantHashes m.hashUsed.toNat (pointed hashes n) }) := by
  have hfull : ¬ syncMaxWant ≤ m.numWant := fun hf => h (Or.inl hf)
  have hfit : ¬ (n < 0 ∨ syncHashPool - m.hashUsed < n) := fun hf => h (Or.inr hf)
  rw [syncWantPushAgain, if_neg hfull, if_neg hfit]
  by_cases hn : 0 < n
  · rw [if_pos hn]
  · -- nothing is copied, and a copy of nothing changes nothing
    have hnil : pointed hashes n = [] := by
      rw [pointed, Int.toNat_of_nonpos (Int.not_lt.mp hn)]
      rfl
    rw [if_neg hn, hnil, Buffer.write_nil]

/-- The refusals of the code are those of the stack. -/
theorem refused_iff (h : Holds m q) (n : Int) : Refused m n ↔ Spec.refuses q n := by
  rw [Refused, Spec.refuses, h.num, h.used]
  omega

theorem pushAgain_refines (h : Holds m q) (folderIdx : Int) (fi : Info) (hashes : Nat → Hash)
    (n conflict attempts : Int) :
    let r := syncWantPushAgain m folderIdx fi hashes n conflict attempts
    let s := Spec.push q n ⟨folderIdx, metaFromFi fi, pointed hashes n, conflict, attempts⟩
    Answer.pushed r.1 = s.1 ∧ Holds r.2 s.2 := by
  by_cases hr : Spec.refuses q n
  · rw [Spec.push, if_pos hr, pushAgain_of_refused ((refused_iff h n).mpr hr)]
    exact ⟨rfl, h⟩
  · rw [Spec.push, if_neg hr, pushAgain_of_accepted (mt (refused_iff h n).mp hr)]
    unfold Spec.refuses at hr
    have hlen : (pointed hashes n).length = n := by
      rw [length_pointed]
      omega
    have hnew := holds_push h ⟨folderIdx, metaFromFi fi, pointed hashes n, conflict, attempts⟩
      (by omega) (by rw [Spec.load_cons]; dsimp only; omega)
    rw [Entry.slot, hlen, ← h.used] at hnew
    exact ⟨rfl, hnew⟩

/-- The search in the array is the search in the stack. -/
theorem has_refines (h : Holds m q) (folderIdx : Int) (name : Bytes) :
    syncWantHas m folderIdx name =
      q.any fun e => e.folderIdx = folderIdx && e.fi.name.bytes = name := by
  have hn : m.numWant.toNat = q.length := by
    rw [h.num]
    rfl
  have hany : ∀ q : List Entry,
      ((slots q).any fun t => t.folderIdx = folderIdx && t.fi.name.bytes = name) =
        q.any fun e => e.folderIdx = folderIdx && e.fi.name.bytes = name := by
    intro q
    induction q with
    | nil => rfl
    | cons e q ih =>
      rw [slots, List.any_append, ih, List.any_cons, Bool.or_comm, List.any_cons, List.any_nil,
        Bool.or_false]
      rfl
  rw [syncWantHas, hn, h.slots, hany]

/-- The entry on top. -/
theorem slot_top {e : Entry} (h : Holds m (e :: q)) :
    m.numWant ≠ 0 ∧ m.slot (m.numWant - 1) = e.slot (Spec.load q) := by
  have hn : (m.numWant - 1).toNat = q.length := by
    rw [h.num, List.length_cons]
    omega
  have hget : m.want[q.length]? = some (e.slot (Spec.load q)) := by
    have htop : (m.want.take (q.length + 1))[q.length]? = (slots (e :: q))[q.length]? := by
      rw [← h.slots]
      rfl
    rw [List.getElem?_take_of_lt (Nat.lt_succ_self _), slots,
      List.getElem?_append_right (by rw [length_slots]), length_slots, Nat.sub_self] at htop
    exact htop
  constructor
  · rw [h.num, List.length_cons]
    omega
  · rw [SyncModel.slot, hn, List.getD_eq_getElem?_getD, hget]
    rfl

theorem peek_refines (h : Holds m q) (toFolder toName : Bool) (cap : Int) :
    syncWantPeek m toFolder toName cap = q.head?.map (Spec.peeked toFolder toName cap) := by
  cases q with
  | nil =>
    have h0 : m.numWant = 0 := h.num
    rw [syncWantPeek, if_pos h0]
    rfl
  | cons e q =>
    obtain ⟨hne, htop⟩ := slot_top h
    rw [syncWantPeek, if_neg hne, htop]
    rfl

/-- Without its top entry the queue still holds the rest. -/
theorem holds_pop {e : Entry} (h : Holds m (e :: q)) :
    Holds { m with numWant := m.numWant - 1, hashUsed := Spec.load q } q := by
  have hfits := h.fits
  have hroom := h.room
  rw [Spec.load_cons] at hfits
  rw [List.length_cons] at hroom
  refine ⟨?_, by omega, rfl, by omega, h.wantLength, h.poolLength, ?_, ?_⟩
  · dsimp only
    rw [h.num, List.length_cons]
    omega
  · have hcut := congrArg (List.take q.length) h.slots
    rw [List.length_cons, List.take_take, Nat.min_eq_left (Nat.le_succ _), slots,
      List.take_left' (length_slots q)] at hcut
    exact hcut
  · have hcut := congrArg (List.take (Spec.load q)) h.pool
    rw [Spec.load_cons, List.take_take, Nat.min_eq_left (Nat.le_add_left _ _), pooled,
      List.take_left' (length_pooled q)] at hcut
    exact hcut

/-- The hashes of the top entry, as many as there is room for. -/
theorem read_top {e : Entry} (h : Holds m (e :: q)) (k : Nat) (hk : k ≤ e.hashes.length) :
    Buffer.read m.wantHashes (Spec.load q) k = e.hashes.take k := by
  have hpool := h.pool
  rw [Spec.load_cons, Nat.add_comm, pooled, ← length_pooled q] at hpool
  rw [← length_pooled q]
  exact Buffer.read_of_take hpool hk

theorem pop_refines (h : Holds m q) (toHashes : Bool) (cap : Int) :
    let r := syncWantPop m toHashes cap
    r.1.map popped = q.head?.map (Spec.popped toHashes cap) ∧ Holds r.2 q.tail := by
  cases q with
  | nil =>
    have h0 : m.numWant = 0 := h.num
    rw [syncWantPop, if_pos h0]
    exact ⟨rfl, h⟩
  | cons e q =>
    obtain ⟨hne, htop⟩ := slot_top h
    rw [syncWantPop, if_neg hne, htop]
    refine ⟨?_, holds_pop h⟩
    have hread : (if 0 < (if (e.hashes.length : Int) < cap then (e.hashes.length : Int) else cap) ∧
          toHashes = true then
        Buffer.read m.wantHashes (Spec.load q)
          (if (e.hashes.length : Int) < cap then (e.hashes.length : Int) else cap).toNat else []) =
        if toHashes then e.hashes.take cap.toNat else [] := by
      generalize hk : (if (e.hashes.length : Int) < cap then (e.hashes.length : Int) else cap) = k
      have hk' : k = min (e.hashes.length : Int) cap := by
        rw [← hk]
        split <;> omega
      have htake : e.hashes.take cap.toNat = e.hashes.take k.toNat := by
        rw [hk', List.take_eq_take_iff]
        omega
      by_cases hto : toHashes = true
      · rw [if_pos hto, htake]
        by_cases hpos : 0 < k
        · rw [if_pos ⟨hpos, hto⟩, read_top h k.toNat (by omega)]
        · rw [if_neg fun hc => hpos hc.1, Int.toNat_of_nonpos (Int.not_lt.mp hpos), List.take_zero]
      · rw [if_neg hto, if_neg fun hc => hto hc.2]
    show some (popped (_, _)) = some _
    rw [popped, Spec.popped]
    exact congrArg (fun hs => some (Popped.mk _ _ _ _ _ hs)) hread

end

/-! ## Any sequence of operations -/

/-- One operation: the same answer, and the arrays still hold the stack. -/
theorem step_refines {m : SyncModel} {q : List Entry} (h : Holds m q) (op : Op) :
    (step m op).1 = (Spec.step q op).1 ∧ Holds (step m op).2 (Spec.step q op).2 := by
  cases op with
  | push folderIdx fi hashes n conflict => exact pushAgain_refines h folderIdx fi hashes n conflict 0
  | pushAgain folderIdx fi hashes n conflict attempts =>
    exact pushAgain_refines h folderIdx fi hashes n conflict attempts
  | has folderIdx name => exact ⟨congrArg Answer.has (has_refines h folderIdx name), h⟩
  | peek toFolder toName cap => exact ⟨congrArg Answer.peeked (peek_refines h toFolder toName cap), h⟩
  | pop toHashes cap =>
    obtain ⟨hr, hq⟩ := pop_refines h toHashes cap
    exact ⟨congrArg Answer.popped hr, hq⟩

theorem run_refines {m : SyncModel} {q : List Entry} (h : Holds m q) (ops : List Op) :
    (runWith step m ops).1 = (runWith Spec.step q ops).1 ∧
      Holds (runWith step m ops).2 (runWith Spec.step q ops).2 := by
  induction ops generalizing m q with
  | nil => exact ⟨rfl, h⟩
  | cons op ops ih =>
    obtain ⟨ha, hm⟩ := step_refines h op
    obtain ⟨has, hend⟩ := ih hm
    rw [runWith, runWith]
    dsimp only
    exact ⟨by rw [ha, has], hend⟩

/-! ## The pool -/

/-- The block counts of the lowest `i` entries. -/
def SyncModel.sumBelow (m : SyncModel) (i : Nat) : Int := ((m.want.take i).map WantFile.numBlocks).sum

/-- An entry's slice of the pool starts where those of the entries below it end. -/
def Contiguous (m : SyncModel) : Prop :=
  ∀ i : Nat, i < m.numWant → 0 ≤ (m.slot i).numBlocks ∧ (m.slot i).hashOff = m.sumBelow i

/-- No two slices overlap. -/
def Disjoint (m : SyncModel) : Prop :=
  ∀ i j : Nat, i < j → j < m.numWant →
    (m.slot i).hashOff + (m.slot i).numBlocks ≤ (m.slot j).hashOff

/-- The counts of the entries in use add up to the load. -/
theorem sum_slots (q : List Entry) : ((slots q).map WantFile.numBlocks).sum = Spec.load q := by
  induction q with
  | nil => rfl
  | cons e q ih =>
    rw [slots, List.map_append, List.sum_append, ih, Spec.load_cons]
    simp [Entry.slot, Int.add_comm]

theorem slots_getElem? {q : List Entry} {i : Nat} {t : WantFile} (h : (slots q)[i]? = some t) :
    0 ≤ t.numBlocks ∧ t.hashOff = (((slots q).take i).map WantFile.numBlocks).sum := by
  induction q with
  | nil => simp [slots] at h
  | cons e q ih =>
    rw [slots] at h ⊢
    by_cases hi : i < (slots q).length
    · rw [List.getElem?_append_left hi] at h
      rw [List.take_append_of_le_length (Nat.le_of_lt hi)]
      exact ih h
    · have hi' : i = (slots q).length := by
        have := (List.getElem?_eq_some_iff.mp h).1
        rw [List.length_append, List.length_singleton] at this
        omega
      subst hi'
      rw [List.getElem?_append_right (Nat.le_refl _), Nat.sub_self] at h
      obtain rfl := Option.some.inj h
      rw [List.take_left, sum_slots]
      exact ⟨Int.natCast_nonneg _, rfl⟩

section
variable {m : SyncModel} {q : List Entry}

theorem slots_of_holds (h : Holds m q) {i : Nat} (hi : i < q.length) :
    (slots q)[i]? = some (m.slot i) := by
  have hlt : i < m.want.length := by
    have := h.room
    rw [h.wantLength]
    omega
  have hget : (slots q)[i]? = m.want[i]? := by
    rw [← h.slots, List.getElem?_take_of_lt hi]
  rw [hget, SyncModel.slot, Int.toNat_natCast, List.getD_eq_getElem?_getD,
    List.getElem?_eq_getElem hlt]
  rfl

theorem take_slots_of_holds (h : Holds m q) {i : Nat} (hi : i ≤ q.length) :
    (slots q).take i = m.want.take i := by
  rw [← h.slots, List.take_take, Nat.min_eq_left hi]

theorem sumBelow_succ (h : Holds m q) {i : Nat} (hi : i < q.length) :
    m.sumBelow (i + 1) = m.sumBelow i + (m.slot i).numBlocks := by
  rw [SyncModel.sumBelow, SyncModel.sumBelow, ← take_slots_of_holds h hi,
    ← take_slots_of_holds h (Nat.le_of_lt hi), List.take_add_one, slots_of_holds h hi,
    List.map_append, List.sum_append]
  simp

theorem sumBelow_all (h : Holds m q) : m.sumBelow m.numWant.toNat = m.hashUsed := by
  have hn : m.numWant.toNat = q.length := by
    rw [h.num]
    rfl
  rw [SyncModel.sumBelow, hn, h.slots, sum_slots, h.used]

theorem contiguous_of_holds (h : Holds m q) : Contiguous m := by
  intro i hi
  rw [h.num] at hi
  have hlt : i < q.length := by omega
  rw [SyncModel.sumBelow, ← take_slots_of_holds h (Nat.le_of_lt hlt)]
  exact slots_getElem? (slots_of_holds h hlt)

/-- The counts below do not fall on the way up. -/
theorem sumBelow_mono (h : Holds m q) {i j : Nat} (hij : i ≤ j) (hj : j ≤ q.length) :
    m.sumBelow i ≤ m.sumBelow j := by
  induction j, hij using Nat.le_induction with
  | base => exact Int.le_refl _
  | succ j hij ih =>
    have hpos := (slots_getElem? (slots_of_holds h hj)).1
    have hle := ih (Nat.le_of_lt hj)
    rw [sumBelow_succ h hj]
    omega

theorem disjoint_of_holds (h : Holds m q) : Disjoint m := by
  intro i j hij hj
  have hc := contiguous_of_holds h
  rw [(hc i (by omega)).2, (hc j hj).2]
  rw [h.num] at hj
  rw [← sumBelow_succ h (show i < q.length by omega)]
  exact sumBelow_mono h hij (by omega)

/-- A push is refused for one of three reasons, and then nothing has happened. -/
theorem pushAgain_refused_iff (h : Holds m q) (folderIdx : Int) (fi : Info) (hashes : Nat → Hash)
    (n conflict attempts : Int) :
    ((syncWantPushAgain m folderIdx fi hashes n conflict attempts).1 = false ↔
      m.numWant = syncMaxWant ∨ n < 0 ∨ syncHashPool < m.hashUsed + n) ∧
    ((syncWantPushAgain m folderIdx fi hashes n conflict attempts).1 = false →
      (syncWantPushAgain m folderIdx fi hashes n conflict attempts).2 = m) := by
  have hroom := h.room
  have hiff : Refused m n ↔ m.numWant = syncMaxWant ∨ n < 0 ∨ syncHashPool < m.hashUsed + n := by
    rw [Refused, h.num]
    omega
  rw [← hiff]
  by_cases hr : Refused m n
  · rw [pushAgain_of_refused hr]
    exact ⟨⟨fun _ => hr, fun _ => rfl⟩, fun _ => rfl⟩
  · rw [pushAgain_of_accepted hr]
    exact ⟨⟨fun hf => absurd hf (by simp), fun hf => absurd hf hr⟩, fun hf => absurd hf (by simp)⟩

end

/-- **Want queue.** From a fresh start every sequence of operations is answered as by a stack of
entries that own their hashes; the pool is filled without gaps and never past its end. -/
theorem wantQueue_refines (ops : List Op) :
    let m := (runWith step syncInit ops).2
    let q := (runWith Spec.step [] ops).2
    (runWith step syncInit ops).1 = (runWith Spec.step [] ops).1 ∧
      Holds m q ∧
      m.hashUsed = m.sumBelow m.numWant.toNat ∧ m.hashUsed ≤ syncHashPool ∧
      Contiguous m ∧ Disjoint m ∧
      ∀ folderIdx fi hashes n conflict attempts,
        ((syncWantPushAgain m folderIdx fi hashes n conflict attempts).1 = false ↔
          m.numWant = syncMaxWant ∨ n < 0 ∨ syncHashPool < m.hashUsed + n) ∧
        ((syncWantPushAgain m folderIdx fi hashes n conflict attempts).1 = false →
          (syncWantPushAgain m folderIdx fi hashes n conflict attempts).2 = m) := by
  intro m q
  obtain ⟨hans, hold⟩ := run_refines holds_init ops
  have hfits := hold.fits
  refine ⟨hans, hold, (sumBelow_all hold).symm, ?_, contiguous_of_holds hold, disjoint_of_holds hold,
    pushAgain_refused_iff hold⟩
  rw [hold.used]
  omega

end Amisync.WantQueue
