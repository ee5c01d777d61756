import Amisync.Types

/-!
# Names from the wire and names on disk (`pathsafe.c`)

A sync name is a `/`-separated list of components. On the wire it is UTF-8; on
disk a component whose code points all fit Latin-1 is stored as Latin-1 bytes,
and any other component byte for byte.

* `pathNameSafe`: the guard every received name passes.
* `nameToLocal`, `nameFromLocal`: the two mappings, component by component.
* `nameToLocal_ascii`, `nameFromLocal_ascii`: both leave an ASCII name alone.
* `toLocal_of_fromLocal`: a name read off the disk leads back to where it was
  read.
-/

namespace Amisync

def slash : UInt8 := 47
def colon : UInt8 := 58
def backslash : UInt8 := 92
def dot : UInt8 := 46

/-- Put a byte in front of the first component. -/
def consFirst (b : UInt8) : List Bytes → List Bytes
  | [] => [[b]]
  | c :: cs => (b :: c) :: cs

/-- The components of a name; the separators are dropped. -/
def components : Bytes → List Bytes
  | [] => [[]]
  | b :: rest => if b = slash then [] :: components rest else consFirst b (components rest)

def joinComponents : List Bytes → Bytes
  | [] => []
  | [c] => c
  | c :: d :: cs => c ++ slash :: joinComponents (d :: cs)

theorem components_ne_nil (name : Bytes) : components name ≠ [] := by
  cases name with
  | nil => simp [components]
  | cons b rest =>
    rw [components]
    split
    · simp
    · cases components rest <;> simp [consFirst]

theorem joinComponents_consFirst (b : UInt8) {cs : List Bytes} (h : cs ≠ []) :
    joinComponents (consFirst b cs) = b :: joinComponents cs := by
  cases cs with
  | nil => exact absurd rfl h
  | cons c cs => cases cs <;> rfl

theorem joinComponents_components (name : Bytes) : joinComponents (components name) = name := by
  induction name with
  | nil => rfl
  | cons b rest ih =>
    rw [components]
    split
    · rename_i hb
      obtain ⟨c, cs, hc⟩ := List.exists_cons_of_ne_nil (components_ne_nil rest)
      rw [hc] at ih ⊢
      rw [joinComponents, ih, hb]
      rfl
    · rw [joinComponents_consFirst b (components_ne_nil rest), ih]

def componentSafe (c : Bytes) : Bool :=
  !c.contains colon && !c.contains backslash && c != [] && c != [dot] && c != [dot, dot]

def pathNameSafe (name : Name) : Bool := (components name).all componentSafe

/-! ## UTF-8 -/

/-- The continuation bytes of a sequence; the first one has its own limits. -/
def utf8Tail : Nat → UInt8 → UInt8 → Nat → Bytes → Option (Nat × Bytes)
  | 0, _, _, cp, rest => some (cp, rest)
  | n + 1, lo, hi, cp, b :: rest =>
    if b < lo ∨ hi < b then none
    else utf8Tail n 0x80 0xBF (cp * 64 + b.toNat % 64) rest
  | _ + 1, _, _, _, [] => none

/-- `utf8_seq`: the code point at the front in its shortest form, and what follows it. -/
def utf8Seq : Bytes → Option (Nat × Bytes)
  | [] => none
  | b :: rest =>
    if b < 0x80 then some (b.toNat, rest)
    else if b < 0xC2 then none
    else if b < 0xE0 then utf8Tail 1 0x80 0xBF (b.toNat % 32) rest
    else if b < 0xF0 then
      utf8Tail 2 (if b = 0xE0 then 0xA0 else 0x80) (if b = 0xED then 0x9F else 0xBF)
        (b.toNat % 16) rest
    else if b < 0xF5 then
      utf8Tail 3 (if b = 0xF0 then 0x90 else 0x80) (if b = 0xF4 then 0x8F else 0xBF)
        (b.toNat % 8) rest
    else none

/-- The code points of a component; the fuel is its length. -/
def utf8Points : Nat → Bytes → Option (List Nat)
  | _, [] => some []
  | 0, _ :: _ => none
  | n + 1, b :: rest =>
    match utf8Seq (b :: rest) with
    | none => none
    | some (cp, rest') => (utf8Points n rest').map (cp :: ·)

inductive Utf8Class where
  | invalid
  | latin
  | wide
  deriving DecidableEq, Repr

def utf8Class (c : Bytes) : Utf8Class :=
  match utf8Points c.length c with
  | none => .invalid
  | some cps => if cps.any (fun cp => 0xFF < cp) then .wide else .latin

/-! ## The two mappings -/

def componentToLocal (c : Bytes) : Bytes :=
  match utf8Class c, utf8Points c.length c with
  | .latin, some cps => cps.map UInt8.ofNat
  | _, _ => c

def byteFromLocal (b : UInt8) : Bytes :=
  if b < 0x80 then [b] else [(0xC0 : UInt8) ||| (b >>> 6), (0x80 : UInt8) ||| (b &&& 0x3F)]

def componentFromLocal (c : Bytes) : Bytes :=
  if utf8Class c = .wide then c else c.flatMap byteFromLocal

/-- The C loops check the bound before every byte they store, so the result fits or there
is none. -/
def fitted (cap : Nat) (out : Bytes) : Option Bytes := if out.length < cap then some out else none

def nameToLocal (cap : Nat) (name : Name) : Option Bytes :=
  fitted cap (joinComponents ((components name).map componentToLocal))

def nameFromLocal (cap : Nat) (loc : Bytes) : Option Name :=
  fitted cap (joinComponents ((components loc).map componentFromLocal))

/-- `to_local` of `folder.c`. -/
def toLocal (name : Name) : Option Bytes := nameToLocal bepPathMax name

/-! ## ASCII names are the same in both -/

def Ascii (c : Bytes) : Prop := ∀ b ∈ c, b < 0x80

instance (c : Bytes) : Decidable (Ascii c) := inferInstanceAs (Decidable (∀ b ∈ c, _))

theorem utf8Points_ascii {c : Bytes} (h : Ascii c) (n : Nat) (hn : c.length ≤ n) :
    utf8Points n c = some (c.map UInt8.toNat) := by
  induction c generalizing n with
  | nil => cases n <;> rfl
  | cons b c ih =>
    cases n with
    | zero => simp at hn
    | succ n =>
      have hb : b < 0x80 := h b List.mem_cons_self
      have hc : Ascii c := fun x hx => h x (List.mem_cons_of_mem _ hx)
      simp [utf8Points, utf8Seq, hb, ih hc n (by simpa using hn)]

theorem ofNat_comp_toNat : UInt8.ofNat ∘ UInt8.toNat = id := by
  funext b
  exact UInt8.ofNat_toNat

theorem latin_points (c : Bytes) : ((c.map UInt8.toNat).any fun cp => 0xFF < cp) = false := by
  rw [List.any_eq_false]
  intro cp hcp
  obtain ⟨b, -, rfl⟩ := List.mem_map.mp hcp
  have := b.toNat_lt
  simp only [decide_eq_true_eq]
  omega

theorem utf8Class_ascii {c : Bytes} (h : Ascii c) : utf8Class c = .latin := by
  simp [utf8Class, utf8Points_ascii h c.length (Nat.le_refl _), latin_points c]

theorem componentToLocal_ascii {c : Bytes} (h : Ascii c) : componentToLocal c = c := by
  simp [componentToLocal, utf8Class_ascii h, utf8Points_ascii h c.length (Nat.le_refl _), ofNat_comp_toNat]

theorem componentFromLocal_ascii {c : Bytes} (h : Ascii c) : componentFromLocal c = c := by
  rw [componentFromLocal, utf8Class_ascii h, if_neg (by decide)]
  induction c with
  | nil => rfl
  | cons b c ih =>
    have hb : b < 0x80 := h b List.mem_cons_self
    rw [List.flatMap_cons, ih fun x hx => h x (List.mem_cons_of_mem _ hx)]
    simp [byteFromLocal, hb]

theorem ascii_of_mem_components {name c : Bytes} (h : Ascii name) (hc : c ∈ components name) :
    Ascii c := by
  induction name generalizing c with
  | nil =>
    simp only [components, List.mem_singleton] at hc
    exact hc ▸ h
  | cons b rest ih =>
    have hrest : Ascii rest := fun x hx => h x (List.mem_cons_of_mem _ hx)
    rw [components] at hc
    split at hc
    · rcases List.mem_cons.mp hc with rfl | hc
      · exact fun x hx => absurd hx List.not_mem_nil
      · exact ih hrest hc
    · obtain ⟨d, ds, hd⟩ := List.exists_cons_of_ne_nil (components_ne_nil rest)
      rw [hd, consFirst] at hc
      rcases List.mem_cons.mp hc with rfl | hc
      · intro x hx
        rcases List.mem_cons.mp hx with rfl | hx
        · exact h _ List.mem_cons_self
        · exact ih hrest (hd ▸ List.mem_cons_self) x hx
      · exact ih hrest (hd ▸ List.mem_cons_of_mem _ hc)

/-- A mapping that leaves every component alone leaves the name alone. -/
theorem joinComponents_map {f : Bytes → Bytes} {name : Bytes}
    (h : ∀ c ∈ components name, f c = c) : joinComponents ((components name).map f) = name := by
  rw [List.map_congr_left h, List.map_id', joinComponents_components]

theorem nameToLocal_ascii {cap : Nat} {name : Name} (h : Ascii name) (hlen : name.length < cap) :
    nameToLocal cap name = some name := by
  rw [nameToLocal, joinComponents_map fun c hc =>
    componentToLocal_ascii (ascii_of_mem_components h hc), fitted, if_pos hlen]

theorem nameFromLocal_ascii {cap : Nat} {name : Bytes} (h : Ascii name) (hlen : name.length < cap) :
    nameFromLocal cap name = some name := by
  rw [nameFromLocal, joinComponents_map fun c hc =>
    componentFromLocal_ascii (ascii_of_mem_components h hc), fitted, if_pos hlen]

/-! ## From the disk and back -/

theorem components_cons_of_ne {b : UInt8} (hb : b ≠ slash) (rest : Bytes) :
    components (b :: rest) = consFirst b (components rest) := by
  rw [components, if_neg hb]

/-- A component in front of a name that goes on. -/
theorem components_append_slash {c : Bytes} (hc : slash ∉ c) (rest : Bytes) :
    components (c ++ slash :: rest) = c :: components rest := by
  induction c with
  | nil => simp [components]
  | cons b c ih =>
    have hb : b ≠ slash := fun e => hc (e ▸ List.mem_cons_self)
    rw [List.cons_append, components_cons_of_ne hb, ih fun h => hc (List.mem_cons_of_mem _ h)]
    rfl

theorem components_append_below (p q : Bytes) :
    components (p ++ slash :: q) = components p ++ components q := by
  induction p with
  | nil => simp [components]
  | cons b p ih =>
    by_cases hb : b = slash
    · rw [List.cons_append, components, components, if_pos hb, if_pos hb, ih, List.cons_append]
    · rw [List.cons_append, components_cons_of_ne hb, components_cons_of_ne hb, ih]
      obtain ⟨c, cs, hcs⟩ := List.exists_cons_of_ne_nil (components_ne_nil p)
      rw [hcs]
      rfl

theorem components_of_no_slash {c : Bytes} (hc : slash ∉ c) : components c = [c] := by
  induction c with
  | nil => rfl
  | cons b c ih =>
    have hb : b ≠ slash := fun e => hc (e ▸ List.mem_cons_self)
    rw [components_cons_of_ne hb, ih fun h => hc (List.mem_cons_of_mem _ h)]
    rfl

theorem components_joinComponents {cs : List Bytes} (hne : cs ≠ []) (h : ∀ c ∈ cs, slash ∉ c) :
    components (joinComponents cs) = cs := by
  induction cs with
  | nil => exact absurd rfl hne
  | cons c cs ih =>
    cases cs with
    | nil => exact components_of_no_slash (h c List.mem_cons_self)
    | cons d ds =>
      rw [joinComponents, components_append_slash (h c List.mem_cons_self),
        ih (List.cons_ne_nil d ds) fun x hx => h x (List.mem_cons_of_mem _ hx)]

theorem slash_not_mem_components {name c : Bytes} (hc : c ∈ components name) : slash ∉ c := by
  induction name generalizing c with
  | nil =>
    simp only [components, List.mem_singleton] at hc
    simp [hc]
  | cons b rest ih =>
    rw [components] at hc
    split at hc
    · rcases List.mem_cons.mp hc with rfl | hc
      · simp
      · exact ih hc
    · rename_i hb
      obtain ⟨d, ds, hd⟩ := List.exists_cons_of_ne_nil (components_ne_nil rest)
      rw [hd, consFirst] at hc
      rcases List.mem_cons.mp hc with rfl | hc
      · rw [List.mem_cons, not_or]
        exact ⟨fun e => hb e.symm, ih (hd ▸ List.mem_cons_self)⟩
      · exact ih (hd ▸ List.mem_cons_of_mem _ hc)

/-- The two bytes a Latin-1 byte is written as. -/
theorem byteFromLocal_high : ∀ n : Fin 256, 0x80 ≤ n.val →
    ¬ (0xC0 : UInt8) ||| (UInt8.ofNat n.val >>> 6) < 0x80 ∧
    ¬ (0xC0 : UInt8) ||| (UInt8.ofNat n.val >>> 6) < 0xC2 ∧
    (0xC0 : UInt8) ||| (UInt8.ofNat n.val >>> 6) < 0xE0 ∧
    ¬ (0x80 : UInt8) ||| (UInt8.ofNat n.val &&& 0x3F) < 0x80 ∧
    ¬ 0xBF < (0x80 : UInt8) ||| (UInt8.ofNat n.val &&& 0x3F) ∧
    ((0xC0 : UInt8) ||| (UInt8.ofNat n.val >>> 6)).toNat % 32 * 64 +
      ((0x80 : UInt8) ||| (UInt8.ofNat n.val &&& 0x3F)).toNat % 64 = (UInt8.ofNat n.val).toNat := by
  decide +kernel

/-- A byte read off the disk is the code point it stands for. -/
theorem utf8Seq_byteFromLocal (b : UInt8) (rest : Bytes) :
    utf8Seq (byteFromLocal b ++ rest) = some (b.toNat, rest) := by
  unfold byteFromLocal
  split
  · rename_i hb
    simp [utf8Seq, hb]
  · rename_i hb
    have hn : 0x80 ≤ b.toNat := by
      rw [UInt8.lt_iff_toNat_lt] at hb
      exact Nat.le_of_not_lt hb
    have h := byteFromLocal_high ⟨b.toNat, b.toNat_lt⟩ hn
    rw [UInt8.ofNat_toNat] at h
    obtain ⟨h1, h2, h3, h4, h5, h6⟩ := h
    simp only [List.cons_append, List.nil_append, utf8Seq, if_neg h1, if_neg h2, if_pos h3, utf8Tail,
      h4, h5, or_self, if_false, h6]

theorem utf8Points_flatMap (c : Bytes) (fuel : Nat) (h : c.length ≤ fuel) :
    utf8Points fuel (c.flatMap byteFromLocal) = some (c.map UInt8.toNat) := by
  induction c generalizing fuel with
  | nil => cases fuel <;> rfl
  | cons b c ih =>
    cases fuel with
    | zero => simp at h
    | succ fuel =>
      have hseq := utf8Seq_byteFromLocal b (c.flatMap byteFromLocal)
      have hih := ih fuel (by simpa using h)
      rw [List.flatMap_cons]
      obtain ⟨x, xs, hx⟩ : ∃ x xs, byteFromLocal b = x :: xs := by
        unfold byteFromLocal
        split
        · exact ⟨_, _, rfl⟩
        · exact ⟨_, _, rfl⟩
      rw [hx, List.cons_append] at hseq ⊢
      rw [utf8Points, hseq]
      simp [hih]

theorem length_le_flatMap_byteFromLocal (c : Bytes) :
    c.length ≤ (c.flatMap byteFromLocal).length := by
  induction c with
  | nil => simp
  | cons b c ih =>
    have hb : 1 ≤ (byteFromLocal b).length := by
      unfold byteFromLocal
      split <;> simp
    rw [List.flatMap_cons, List.length_append, List.length_cons]
    omega

/-- **Component.** What is read off the disk maps back to it. -/
theorem componentToLocal_fromLocal (c : Bytes) : componentToLocal (componentFromLocal c) = c := by
  unfold componentFromLocal
  split
  · rename_i hw
    simp [componentToLocal, hw]
  · have hpoints := utf8Points_flatMap c (c.flatMap byteFromLocal).length
      (length_le_flatMap_byteFromLocal c)
    have hclass : utf8Class (c.flatMap byteFromLocal) = .latin := by
      rw [utf8Class, hpoints]
      dsimp only
      rw [latin_points]
      rfl
    rw [componentToLocal, hclass, hpoints]
    dsimp only
    rw [List.map_map, ofNat_comp_toNat, List.map_id]

theorem length_le_componentFromLocal (c : Bytes) : c.length ≤ (componentFromLocal c).length := by
  unfold componentFromLocal
  split
  · exact Nat.le_refl _
  · exact length_le_flatMap_byteFromLocal c

theorem slash_not_mem_fromLocal {c : Bytes} (hc : slash ∉ c) : slash ∉ componentFromLocal c := by
  have hhigh : ∀ n : Fin 256, 0x80 ≤ n.val → slash ∉ byteFromLocal (UInt8.ofNat n.val) := by
    decide +kernel
  unfold componentFromLocal
  split
  · exact hc
  · intro h
    obtain ⟨b, hb, hs⟩ := List.mem_flatMap.mp h
    by_cases hlow : b < 0x80
    · rw [byteFromLocal, if_pos hlow, List.mem_singleton] at hs
      exact hc (hs ▸ hb)
    · have hn : 0x80 ≤ b.toNat := by
        rw [UInt8.lt_iff_toNat_lt] at hlow
        exact Nat.le_of_not_lt hlow
      have h' := hhigh ⟨b.toNat, b.toNat_lt⟩ hn
      rw [UInt8.ofNat_toNat] at h'
      exact h' hs

theorem length_joinComponents_le {f : Bytes → Bytes} (hf : ∀ c, c.length ≤ (f c).length)
    (cs : List Bytes) : (joinComponents cs).length ≤ (joinComponents (cs.map f)).length := by
  induction cs with
  | nil => simp [joinComponents]
  | cons c cs ih =>
    cases cs with
    | nil => exact hf c
    | cons d ds =>
      have := hf c
      simp only [List.map_cons, joinComponents, List.length_append, List.length_cons] at ih ⊢
      omega

/-- A mapping of components that puts no separator into one. -/
theorem components_map {f : Bytes → Bytes} (hf : ∀ c, slash ∉ c → slash ∉ f c) (name : Bytes) :
    components (joinComponents ((components name).map f)) = (components name).map f := by
  apply components_joinComponents
  · simp [components_ne_nil]
  · intro c hc
    obtain ⟨d, hd, rfl⟩ := List.mem_map.mp hc
    exact hf d (slash_not_mem_components hd)

theorem fitted_eq_some {cap : Nat} {out r : Bytes} :
    fitted cap out = some r ↔ out = r ∧ out.length < cap := by
  unfold fitted
  split
  · rename_i h
    simp [h]
  · rename_i h
    simp [h]

theorem components_of_nameFromLocal {cap : Nat} {l n : Bytes} (h : nameFromLocal cap l = some n) :
    components n = (components l).map componentFromLocal := by
  obtain ⟨rfl, -⟩ := fitted_eq_some.mp h
  exact components_map (fun _ => slash_not_mem_fromLocal) l

theorem length_of_nameFromLocal {cap : Nat} {l n : Bytes} (h : nameFromLocal cap l = some n) :
    l.length ≤ n.length := by
  obtain ⟨rfl, -⟩ := fitted_eq_some.mp h
  have hle := length_joinComponents_le length_le_componentFromLocal (components l)
  rwa [joinComponents_components] at hle

/-- **Name.** The mapping to the disk undoes the one from it. -/
theorem nameToLocal_of_fromLocal {cap cap' : Nat} {l n : Bytes} (h : nameFromLocal cap l = some n)
    (hcap : l.length < cap') : nameToLocal cap' n = some l := by
  have hback : componentToLocal ∘ componentFromLocal = id := by
    funext c
    exact componentToLocal_fromLocal c
  rw [nameToLocal, components_of_nameFromLocal h, List.map_map, hback, List.map_id,
    joinComponents_components]
  exact fitted_eq_some.mpr ⟨rfl, hcap⟩

theorem toLocal_of_fromLocal {l : Bytes} {n : Name} (h : nameFromLocal bepPathMax l = some n) :
    toLocal n = some l := by
  have hlen := length_of_nameFromLocal h
  have hfit := (fitted_eq_some.mp h).2
  rw [(fitted_eq_some.mp h).1] at hfit
  exact nameToLocal_of_fromLocal h (Nat.lt_of_le_of_lt hlen hfit)

end Amisync
