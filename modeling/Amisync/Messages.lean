import Amisync.Batch
import Amisync.Frame

/-!
# The other messages (`bep.c`)

ClusterConfig, Request and Response. A device is encoded in a buffer of its own
before it goes into its folder, and a folder before it goes into the message;
the sizes of these buffers are counted from the longest names.

* `assignAll`: the fields of a message, read one after another.
* `deviceWriter_ok`, `folderWriter_ok`: the buffers are large enough.
* `encodeGrow`: the loop of the senders, which make the buffer larger until the
  message fits. `encodeGrow_eq`: it ends with the message.
* `messages_round_trip`: what is sent is what is read.
-/

namespace Amisync

open Pbuf Bep Amisync.Frame

namespace Messages

def bepClusterConfig : Int32 := 0

def bepNameMax : Nat := 64
def bepFolderIdMax : Nat := 64
def bepDeviceKeyLen : Nat := 32
def bepMaxFolders : Nat := 16
def bepMaxDevices : Nat := 16

def deviceWireMax : Nat := bepDeviceKeyLen + bepNameMax + 32
def folderWireMax : Nat := bepFolderIdMax + bepNameMax + 16 + bepMaxDevices * (deviceWireMax + 4)

/-! ## Fields one after another -/

section Assign
variable {α : Type} (store : α → UInt32 → Value → Option α)

def assignAll (a : α) (l : List Field) : Option α :=
  l.foldlM (fun a f => store a f.number f.value) a

variable {store} {a a' a'' : α} {f : Field} {l l' : List Field}

theorem assignAll_nil (a : α) : assignAll store a [] = some a := rfl

theorem assignAll_cons (h : store a f.number f.value = some a') :
    assignAll store a (f :: l) = assignAll store a' l := by
  rw [assignAll, List.foldlM_cons, h]
  rfl

theorem assignAll_append (h : assignAll store a l = some a') :
    assignAll store a (l ++ l') = assignAll store a' l' := by
  rw [assignAll, List.foldlM_append]
  show (assignAll store a l).bind _ = _
  rw [h]
  rfl

/-- A field that is left out where it has the value it is initialised with. -/
theorem assignAll_optional {p : Prop} [Decidable p] (hp : p → store a f.number f.value = some a')
    (hn : ¬p → a = a') : assignAll store a (optional p f) = some a' := by
  rw [optional]
  split
  · rename_i h
    rw [assignAll_cons (hp h)]
    rfl
  · rename_i h
    rw [hn h]
    rfl

theorem readMessage_assignAll (hl : (l.flatMap Field.bytes).length < 2 ^ 64) (a : α) :
    readMessage store a (l.flatMap Field.bytes) = assignAll store a l :=
  readMessage_bytes (sized_of_length hl) a

end Assign

/-! ## ClusterConfig -/

abbrev DeviceKey := { b : Bytes // b.length = bepDeviceKeyLen }

structure Device where
  id : DeviceKey
  name : CString 63
  maxSequence : Int64
  indexId : UInt64
  deriving DecidableEq

structure Folder where
  id : CString 63
  label : CString 63
  type : Int32
  devices : List Device
  room : devices.length ≤ bepMaxDevices
  deriving DecidableEq

structure ClusterConfig where
  folders : List Folder
  room : folders.length ≤ bepMaxFolders
  deriving DecidableEq

def Device.zero : Device := ⟨⟨List.replicate bepDeviceKeyLen 0, List.length_replicate⟩, .empty _, 0, 0⟩

def Folder.zero : Folder := ⟨.empty _, .empty _, 0, [], Nat.zero_le _⟩

def ClusterConfig.zero : ClusterConfig := ⟨[], Nat.zero_le _⟩

/-- What `encode_device` writes into its buffer. -/
def deviceWriter (d : Device) : Writer :=
  let dw := (Writer.init deviceWireMax).writeBytes 1 d.id.1
  let dw := if d.name.bytes ≠ [] then dw.writeBytes 2 d.name.bytes else dw
  let dw := if d.maxSequence ≠ 0 then dw.writeUint64 6 d.maxSequence.toUInt64 else dw
  if d.indexId ≠ 0 then dw.writeUint64 8 d.indexId else dw

/-- `encode_device` -/
def encodeDevice (folder : Writer) (d : Device) : Writer := folder.writeMessage 16 (deviceWriter d)

/-- What `encode_folder` writes into its buffer. -/
def folderWriter (f : Folder) : Writer :=
  let fw := (Writer.init folderWireMax).writeBytes 1 f.id.bytes
  let fw := if f.label.bytes ≠ [] then fw.writeBytes 2 f.label.bytes else fw
  let fw := if f.type ≠ 0 then fw.writeUint64 3 f.type.toUInt32.toUInt64 else fw
  f.devices.foldl encodeDevice fw

/-- `encode_folder` -/
def encodeFolder (cc : Writer) (f : Folder) : Writer := cc.writeMessage 1 (folderWriter f)

/-- `bep_encode_cluster_config` -/
def encodeClusterConfig (cc : ClusterConfig) (cap : Nat) : Option Bytes :=
  let w := cc.folders.foldl encodeFolder (Writer.init cap)
  if w.error then none else some w.buf

def storeDevice (d : Device) (f : UInt32) : Value → Option Device
  | .data b => some (if h : f = 1 ∧ b.length = bepDeviceKeyLen then { d with id := ⟨b, h.2⟩ }
      else if f = 2 then { d with name := .ofBytes _ b } else d)
  | .num v => some (if f = 6 then { d with maxSequence := v.toInt64 }
      else if f = 8 then { d with indexId := v } else d)
  | .fixed => some d

/-- `decode_device` -/
def decodeDevice (b : Bytes) : Option Device := readMessage storeDevice Device.zero b

def Folder.push (f : Folder) (d : Device) : Folder :=
  if h : f.devices.length < bepMaxDevices then
    { f with
      devices := f.devices ++ [d]
      room := by
        rw [List.length_append, List.length_singleton]
        exact h }
  else f

/-- Devices past the last that fits are skipped unread. -/
def storeFolder (x : Folder) (f : UInt32) : Value → Option Folder
  | .data b =>
    if f = 1 then some { x with id := .ofBytes _ b }
    else if f = 2 then some { x with label := .ofBytes _ b }
    else if f = 16 ∧ x.devices.length < bepMaxDevices then (decodeDevice b).map x.push
    else some x
  | .num v => some (if f = 3 then { x with type := toInt v } else x)
  | .fixed => some x

/-- `decode_folder` -/
def decodeFolder (b : Bytes) : Option Folder := readMessage storeFolder Folder.zero b

def ClusterConfig.push (cc : ClusterConfig) (f : Folder) : ClusterConfig :=
  if h : cc.folders.length < bepMaxFolders then
    { cc with
      folders := cc.folders ++ [f]
      room := by
        rw [List.length_append, List.length_singleton]
        exact h }
  else cc

def storeClusterConfig (cc : ClusterConfig) (f : UInt32) : Value → Option ClusterConfig
  | .data b => if f = 1 ∧ cc.folders.length < bepMaxFolders then (decodeFolder b).map cc.push else some cc
  | _ => some cc

/-- `bep_decode_cluster_config` -/
def decodeClusterConfig (b : Bytes) : Option ClusterConfig :=
  readMessage storeClusterConfig ClusterConfig.zero b

/-! ## Sizes -/

def deviceFields (d : Device) : List Field :=
  .data 1 d.id.1 :: optional (d.name.bytes ≠ []) (.data 2 d.name.bytes) ++
    optional (d.maxSequence ≠ 0) (.num 6 d.maxSequence.toUInt64) ++
    optional (d.indexId ≠ 0) (.num 8 d.indexId)

def deviceBytes (d : Device) : Bytes := (deviceFields d).flatMap Field.bytes

def folderFields (f : Folder) : List Field :=
  .data 1 f.id.bytes :: optional (f.label.bytes ≠ []) (.data 2 f.label.bytes) ++
    optional (f.type ≠ 0) (.num 3 f.type.toUInt32.toUInt64) ++
    f.devices.map fun d => .data 16 (deviceBytes d)

def folderBytes (f : Folder) : Bytes := (folderFields f).flatMap Field.bytes

def clusterFields (cc : ClusterConfig) : List Field := cc.folders.map fun f => .data 1 (folderBytes f)

def clusterBytes (cc : ClusterConfig) : Bytes := (clusterFields cc).flatMap Field.bytes

/-- **A device.** -/
theorem length_deviceBytes (d : Device) : (deviceBytes d).length ≤ 121 := by
  have hid : d.id.1.length = 32 := d.id.2
  have hname : d.name.bytes.length ≤ 63 := d.name.short
  have h1 := length_data_short (f := 1) d.id.1 (by decide) (by omega)
  have h2 := length_optional_le (p := d.name.bytes ≠ [])
    (length_data_short (f := 2) d.name.bytes (by decide) (by omega))
  have h6 := length_optional_le (p := d.maxSequence ≠ 0)
    (length_num_le (f := 6) d.maxSequence.toUInt64 (by decide))
  have h8 := length_optional_le (p := d.indexId ≠ 0) (length_num_le (f := 8) d.indexId (by decide))
  rw [deviceBytes, deviceFields]
  simp only [List.cons_append, List.flatMap_cons, List.flatMap_append, List.length_append]
  omega

theorem length_devices (ds : List Device) :
    ((ds.map fun d => Field.data 16 (deviceBytes d)).flatMap Field.bytes).length ≤ 124 * ds.length := by
  induction ds with
  | nil => exact Nat.le_refl _
  | cons d ds ih =>
    have hd := length_deviceBytes d
    have hput : (Varint.put (UInt64.ofNat (deviceBytes d).length)).length ≤ 1 :=
      length_put_ofNat (Nat.lt_of_le_of_lt hd (by decide))
    have htag : (Varint.put (tagOf 16 wtLen)).length ≤ 2 := by decide
    have hfield := length_data htag hput
    rw [List.map_cons, List.flatMap_cons, List.length_append, List.length_cons]
    omega

/-- **A folder.** -/
theorem length_folderBytes (f : Folder) : (folderBytes f).length ≤ 2120 := by
  have hid : f.id.bytes.length ≤ 63 := f.id.short
  have hlabel : f.label.bytes.length ≤ 63 := f.label.short
  have h1 := length_data_short (f := 1) f.id.bytes (by decide) (by omega)
  have h2 := length_optional_le (p := f.label.bytes ≠ [])
    (length_data_short (f := 2) f.label.bytes (by decide) (by omega))
  have h3 := length_optional_le (p := f.type ≠ 0) (length_num32 (f := 3) f.type.toUInt32 (by decide))
  have hdevices := length_devices f.devices
  have hroom : f.devices.length ≤ 16 := f.room
  rw [folderBytes, folderFields]
  simp only [List.cons_append, List.flatMap_cons, List.flatMap_append, List.length_append]
  omega

theorem length_clusterBytes (cc : ClusterConfig) : (clusterBytes cc).length ≤ 34000 := by
  have hall : ∀ fs : List Folder,
      ((fs.map fun f => Field.data 1 (folderBytes f)).flatMap Field.bytes).length ≤ 2124 * fs.length := by
    intro fs
    induction fs with
    | nil => exact Nat.le_refl _
    | cons f fs ih =>
      have hf := length_folderBytes f
      have hfield := length_data_le (f := 1) (folderBytes f) (by decide) (by omega)
      rw [List.map_cons, List.flatMap_cons, List.length_append, List.length_cons]
      omega
  have h := hall cc.folders
  have hroom : cc.folders.length ≤ 16 := cc.room
  rw [clusterBytes, clusterFields]
  omega

/-! ## The buffers suffice -/

section Write
variable {cap : Nat} {w : Writer} {x : Bytes}

theorem wrote_device (d : Device) : Writer.Wrote deviceWireMax (deviceWriter d) (deviceBytes d) := by
  have h1 := (Writer.wrote_init deviceWireMax).writeBytes 1 d.id.1
  have h2 := Wrote.optional (p := d.name.bytes ≠ []) h1 (h1.writeBytes 2 d.name.bytes)
  have h3 := Wrote.optional (p := d.maxSequence ≠ 0) h2 (h2.writeUint64 6 d.maxSequence.toUInt64)
  have h4 := Wrote.optional (p := d.indexId ≠ 0) h3 (h3.writeUint64 8 d.indexId)
  rw [deviceBytes, deviceFields]
  simp only [List.cons_append, List.flatMap_cons, List.flatMap_append, ← List.append_assoc]
  exact h4

/-- **The buffer of a device.** -/
theorem deviceWriter_ok (d : Device) : (deviceWriter d).error = false :=
  (wrote_device d).fits.mpr (Nat.le_trans (length_deviceBytes d) (by decide))

theorem wrote_encodeDevice (h : Writer.Wrote cap w x) (d : Device) :
    Writer.Wrote cap (encodeDevice w d) (x ++ (Field.data 16 (deviceBytes d)).bytes) :=
  h.writeMessage 16 (wrote_device d) (Nat.le_trans (length_deviceBytes d) (by decide))

theorem wrote_devices (h : Writer.Wrote cap w x) (ds : List Device) :
    Writer.Wrote cap (ds.foldl encodeDevice w)
      (x ++ (ds.map fun d => Field.data 16 (deviceBytes d)).flatMap Field.bytes) := by
  induction ds generalizing w x with
  | nil => simpa using h
  | cons d ds ih =>
    have := ih (wrote_encodeDevice h d)
    rwa [List.append_assoc] at this

theorem wrote_folderWriter (f : Folder) :
    Writer.Wrote folderWireMax (folderWriter f) (folderBytes f) := by
  have h1 := (Writer.wrote_init folderWireMax).writeBytes 1 f.id.bytes
  have h2 := Wrote.optional (p := f.label.bytes ≠ []) h1 (h1.writeBytes 2 f.label.bytes)
  have h3 := Wrote.optional (p := f.type ≠ 0) h2 (h2.writeUint64 3 f.type.toUInt32.toUInt64)
  have h4 := wrote_devices h3 f.devices
  rw [folderBytes, folderFields]
  simp only [List.cons_append, List.flatMap_cons, List.flatMap_append, ← List.append_assoc]
  exact h4

/-- **The buffer of a folder.** -/
theorem folderWriter_ok (f : Folder) : (folderWriter f).error = false :=
  (wrote_folderWriter f).fits.mpr (Nat.le_trans (length_folderBytes f) (by decide))

theorem wrote_encodeFolders (h : Writer.Wrote cap w x) (fs : List Folder) :
    Writer.Wrote cap (fs.foldl encodeFolder w)
      (x ++ (fs.map fun f => Field.data 1 (folderBytes f)).flatMap Field.bytes) := by
  induction fs generalizing w x with
  | nil => simpa using h
  | cons f fs ih =>
    have hf := h.writeMessage 1 (wrote_folderWriter f)
      (Nat.le_trans (length_folderBytes f) (by decide))
    have := ih hf
    rwa [List.append_assoc] at this

theorem encodeClusterConfig_eq (cc : ClusterConfig) (cap : Nat) :
    encodeClusterConfig cc cap = if (clusterBytes cc).length ≤ cap then some (clusterBytes cc) else none := by
  have h := wrote_encodeFolders (Writer.wrote_init cap) cc.folders
  rw [List.nil_append] at h
  exact h.returned

end Write

/-! ## What is read of a ClusterConfig -/

theorem decodeDevice_bytes (d : Device) : decodeDevice (deviceBytes d) = some d := by
  let d₁ : Device := { Device.zero with id := d.id }
  let d₂ : Device := { d₁ with name := d.name }
  let d₃ : Device := { d₂ with maxSequence := d.maxSequence }
  have hlen := length_deviceBytes d
  have h1 : storeDevice Device.zero 1 (.data d.id.1) = some d₁ :=
    congrArg some (dif_pos ⟨rfl, d.id.2⟩)
  have h2 : assignAll storeDevice d₁ (optional (d.name.bytes ≠ []) (.data 2 d.name.bytes)) = some d₂ := by
    refine assignAll_optional (fun _ => ?_) fun hn => ?_
    · simp [storeDevice, Field.number, Field.value, d₂]
    · have hname : d.name = .empty _ := CString.ext (not_not.mp hn)
      simp [d₂, d₁, hname, Device.zero]
  have h3 : assignAll storeDevice d₂ (optional (d.maxSequence ≠ 0) (.num 6 d.maxSequence.toUInt64)) =
      some d₃ := by
    refine assignAll_optional (fun _ => ?_) fun hn => ?_
    · simp [storeDevice, Field.number, Field.value, d₃]
    · simp [d₃, d₂, d₁, not_not.mp hn, Device.zero]
  have h4 : assignAll storeDevice d₃ (optional (d.indexId ≠ 0) (.num 8 d.indexId)) = some d := by
    refine assignAll_optional (fun _ => ?_) fun hn => ?_
    · simp [storeDevice, Field.number, Field.value, d₃, d₂, d₁]
    · simp only [d₃, d₂, d₁, Device.zero]
      cases d
      simp only at hn
      rw [not_not.mp hn]
  rw [decodeDevice, deviceBytes, readMessage_assignAll (by rw [← deviceBytes]; omega), deviceFields]
  simp only [List.cons_append]
  rw [assignAll_cons h1, List.append_assoc, assignAll_append h2, assignAll_append h3, h4]

/-- **Devices**, as many as there is room for. -/
theorem assignAll_devices (ds : List Device) (f : Folder) (h : (f.devices ++ ds).length ≤ bepMaxDevices) :
    assignAll storeFolder f (ds.map fun d => .data 16 (deviceBytes d)) =
      some { f with devices := f.devices ++ ds, room := h } := by
  induction ds generalizing f with
  | nil => simp [assignAll_nil]
  | cons d ds ih =>
    have hroom : f.devices.length < bepMaxDevices := by
      rw [List.length_append, List.length_cons] at h
      omega
    have hpush : (f.push d).devices = f.devices ++ [d] := by rw [Folder.push, dif_pos hroom]
    have hrest : (f.push d).id = f.id ∧ (f.push d).label = f.label ∧ (f.push d).type = f.type := by
      rw [Folder.push, dif_pos hroom]
      exact ⟨rfl, rfl, rfl⟩
    have hstore : storeFolder f 16 (.data (deviceBytes d)) = some (f.push d) := by
      simp [storeFolder, hroom, decodeDevice_bytes]
    have hlen : ((f.push d).devices ++ ds).length ≤ bepMaxDevices := by rwa [hpush, ← List.append_cons]
    rw [List.map_cons, assignAll_cons hstore, ih (f.push d) hlen]
    obtain ⟨hid, hlabel, htype⟩ := hrest
    simp only [hpush, hid, hlabel, htype, ← List.append_cons]

theorem decodeFolder_bytes (f : Folder) : decodeFolder (folderBytes f) = some f := by
  let f₁ : Folder := { Folder.zero with id := f.id }
  let f₂ : Folder := { f₁ with label := f.label }
  let f₃ : Folder := { f₂ with type := f.type }
  have hlen := length_folderBytes f
  have h1 : storeFolder Folder.zero 1 (.data f.id.bytes) = some f₁ := by
    simp [storeFolder, f₁]
  have h2 : assignAll storeFolder f₁ (optional (f.label.bytes ≠ []) (.data 2 f.label.bytes)) = some f₂ := by
    refine assignAll_optional (fun _ => ?_) fun hn => ?_
    · simp [storeFolder, Field.number, Field.value, f₂]
    · have hlabel : f.label = .empty _ := CString.ext (not_not.mp hn)
      simp [f₂, f₁, hlabel, Folder.zero]
  have h3 : assignAll storeFolder f₂ (optional (f.type ≠ 0) (.num 3 f.type.toUInt32.toUInt64)) =
      some f₃ := by
    refine assignAll_optional (fun _ => ?_) fun hn => ?_
    · simp [storeFolder, Field.number, Field.value, f₃, toInt_toUInt32]
    · simp [f₃, f₂, f₁, not_not.mp hn, Folder.zero]
  rw [decodeFolder, folderBytes, readMessage_assignAll (by rw [← folderBytes]; omega), folderFields]
  simp only [List.cons_append]
  rw [assignAll_cons h1, List.append_assoc, assignAll_append h2, assignAll_append h3,
    assignAll_devices f.devices f₃ f.room]
  rfl

theorem assignAll_folders (fs : List Folder) (cc : ClusterConfig)
    (h : (cc.folders ++ fs).length ≤ bepMaxFolders) :
    assignAll storeClusterConfig cc (fs.map fun f => .data 1 (folderBytes f)) =
      some ⟨cc.folders ++ fs, h⟩ := by
  induction fs generalizing cc with
  | nil => simp [assignAll_nil]
  | cons f fs ih =>
    have hroom : cc.folders.length < bepMaxFolders := by
      rw [List.length_append, List.length_cons] at h
      omega
    have hpush : (cc.push f).folders = cc.folders ++ [f] := by rw [ClusterConfig.push, dif_pos hroom]
    have hstore : storeClusterConfig cc 1 (.data (folderBytes f)) = some (cc.push f) := by
      simp [storeClusterConfig, hroom, decodeFolder_bytes]
    have hlen : ((cc.push f).folders ++ fs).length ≤ bepMaxFolders := by
      rwa [hpush, ← List.append_cons]
    rw [List.map_cons, assignAll_cons hstore, ih (cc.push f) hlen]
    simp only [hpush, ← List.append_cons]

/-- **ClusterConfig.** -/
theorem decodeClusterConfig_bytes (cc : ClusterConfig) : decodeClusterConfig (clusterBytes cc) = some cc := by
  have hlen := length_clusterBytes cc
  rw [decodeClusterConfig, clusterBytes, readMessage_assignAll (by rw [← clusterBytes]; omega),
    clusterFields, assignAll_folders cc.folders ClusterConfig.zero cc.room]
  rfl

/-! ## The loop of the senders -/

/-- `grow_out_step` -/
def growOutStep (out : Bytes) (granted : Bool) : Option Bytes :=
  if bepMsgMax ≤ out.length then none else growBuf out (out.length + 1) granted

/-- `while (!encode(..)) if (!grow_out_step(c)) return 0;` with `out` and the message in it at the
end. `granted i` is the memory for the growth number `i`. -/
def encodeGrow (encode : Nat → Option Bytes) (granted : Nat → Bool) :
    Nat → Nat → Bytes → Option (Bytes × Bytes)
  | 0, _, out => (encode out.length).map fun body => (Buffer.write out 0 body, body)
  | fuel + 1, i, out =>
    match encode out.length with
    | some body => some (Buffer.write out 0 body, body)
    | none => (growOutStep out (granted i)).bind (encodeGrow encode granted fuel (i + 1))

/-- `bep_send_cluster_config`; `out` is the buffer of the connection. -/
def sendClusterConfig (z : Lz4) (granted : Nat → Bool) (mem : Bool) (accepts : Nat → Nat) (c : Conn)
    (out : Bytes) (cc : ClusterConfig) : Option Sent :=
  (encodeGrow (encodeClusterConfig cc) granted bepMsgMax 0 out).map fun r =>
    sendMessage z mem accepts c bepClusterConfig r.2

/-- **The loop.** Where memory is granted it ends with the message, if that is none too long. -/
theorem encodeGrow_eq {encode : Nat → Option Bytes} {granted : Nat → Bool} {body : Bytes}
    (hg : ∀ i, granted i = true) (hmax : body.length ≤ bepMsgMax)
    (henc : ∀ cap, encode cap = if body.length ≤ cap then some body else none) {fuel i : Nat}
    {out : Bytes} (hfuel : bepMsgMax ≤ out.length + fuel) :
    ∃ out', encodeGrow encode granted fuel i out = some (out', body) := by
  induction fuel generalizing i out with
  | zero =>
    rw [encodeGrow, henc, if_pos (by omega)]
    exact ⟨_, rfl⟩
  | succ fuel ih =>
    rw [encodeGrow, henc]
    by_cases hfit : body.length ≤ out.length
    · rw [if_pos hfit]
      exact ⟨_, rfl⟩
    · rw [if_neg hfit]
      dsimp only
      rw [growOutStep, if_neg (by omega)]
      cases hb : growBuf out (out.length + 1) (granted i) with
      | none => exact absurd (hg i) (by simp [growBuf_none hb (by omega)])
      | some out' =>
        have hroom := (growBuf_spec hb).1
        exact ih (by omega)

/-! ## Request -/

structure Request where
  id : Int32
  folder : CString 63
  name : FileName
  offset : Int64
  size : Int32
  hash : Option Hash
  fromTemporary : Int32
  blockNo : Int32
  deriving DecidableEq

def Request.zero : Request := ⟨0, .empty _, .empty _, 0, 0, none, 0, 0⟩

/-- `bep_encode_request` -/
def encodeRequest (rq : Request) (cap : Nat) : Option Bytes :=
  let w := (Writer.init cap).writeUint64 1 rq.id.toUInt32.toUInt64
  let w := w.writeBytes 2 rq.folder.bytes
  let w := w.writeBytes 3 rq.name.bytes
  let w := w.writeUint64 4 rq.offset.toUInt64
  let w := w.writeUint64 5 rq.size.toUInt32.toUInt64
  let w := match rq.hash with
    | some h => w.writeBytes 6 h.1
    | none => w
  let w := if rq.fromTemporary ≠ 0 then w.writeUint64 7 1 else w
  let w := if rq.blockNo ≠ 0 then w.writeUint64 9 rq.blockNo.toUInt32.toUInt64 else w
  if w.error then none else some w.buf

def storeRequest (rq : Request) (f : UInt32) : Value → Option Request
  | .num v => some (if f = 1 then { rq with id := toInt v }
      else if f = 4 then { rq with offset := v.toInt64 }
      else if f = 5 then { rq with size := toInt v }
      else if f = 7 then { rq with fromTemporary := toInt v }
      else if f = 9 then { rq with blockNo := toInt v }
      else rq)
  | .data b => some (if f = 2 then { rq with folder := .ofBytes _ b }
      else if f = 3 then { rq with name := .ofBytes _ b }
      else if h : f = 6 ∧ b.length = bepHashLen then { rq with hash := some ⟨b, h.2⟩ }
      else rq)
  | .fixed => some rq

/-- `bep_decode_request` -/
def decodeRequest (b : Bytes) : Option Request := readMessage storeRequest Request.zero b

def requestFields (rq : Request) : List Field :=
  [.num 1 rq.id.toUInt32.toUInt64, .data 2 rq.folder.bytes, .data 3 rq.name.bytes,
    .num 4 rq.offset.toUInt64, .num 5 rq.size.toUInt32.toUInt64] ++
  (rq.hash.toList.map fun h => .data 6 h.1) ++ optional (rq.fromTemporary ≠ 0) (.num 7 1) ++
  optional (rq.blockNo ≠ 0) (.num 9 rq.blockNo.toUInt32.toUInt64)

def requestBytes (rq : Request) : Bytes := (requestFields rq).flatMap Field.bytes

theorem wrote_hash {cap : Nat} {w : Writer} {x : Bytes} (h : Writer.Wrote cap w x) (hash : Option Hash) :
    Writer.Wrote cap (match hash with
      | some h => w.writeBytes 6 h.1
      | none => w) (x ++ (hash.toList.map fun h => Field.data 6 h.1).flatMap Field.bytes) := by
  cases hash with
  | none => simpa using h
  | some b => simpa using h.writeBytes 6 b.1

theorem encodeRequest_eq (rq : Request) (cap : Nat) :
    encodeRequest rq cap = if (requestBytes rq).length ≤ cap then some (requestBytes rq) else none := by
  have h1 := (Writer.wrote_init cap).writeUint64 1 rq.id.toUInt32.toUInt64
  have h2 := (h1.writeBytes 2 rq.folder.bytes).writeBytes 3 rq.name.bytes
  have h3 := (h2.writeUint64 4 rq.offset.toUInt64).writeUint64 5 rq.size.toUInt32.toUInt64
  have h4 := wrote_hash h3 rq.hash
  have h5 := Wrote.optional (p := rq.fromTemporary ≠ 0) h4 (h4.writeUint64 7 1)
  have h6 := Wrote.optional (p := rq.blockNo ≠ 0) h5 (h5.writeUint64 9 rq.blockNo.toUInt32.toUInt64)
  have hbytes := h6
  simp only [List.nil_append, List.append_assoc] at hbytes
  have heq : requestBytes rq = (Field.num 1 rq.id.toUInt32.toUInt64).bytes ++
      ((Field.data 2 rq.folder.bytes).bytes ++ ((Field.data 3 rq.name.bytes).bytes ++
      ((Field.num 4 rq.offset.toUInt64).bytes ++ ((Field.num 5 rq.size.toUInt32.toUInt64).bytes ++
      ((rq.hash.toList.map fun h => Field.data 6 h.1).flatMap Field.bytes ++
      ((optional (rq.fromTemporary ≠ 0) (.num 7 1)).flatMap Field.bytes ++
      (optional (rq.blockNo ≠ 0) (.num 9 rq.blockNo.toUInt32.toUInt64)).flatMap Field.bytes)))))) := by
    simp only [requestBytes, requestFields, List.cons_append, List.flatMap_cons, List.flatMap_append,
      List.nil_append, List.append_assoc]
  rw [← heq] at hbytes
  exact hbytes.returned

theorem length_requestBytes (rq : Request) : (requestBytes rq).length ≤ 500 := by
  have hfolder : rq.folder.bytes.length ≤ 63 := rq.folder.short
  have hname : rq.name.bytes.length ≤ 255 := rq.name.short
  have h1 := length_num32 (f := 1) rq.id.toUInt32 (by decide)
  have h2 := length_data_le (f := 2) rq.folder.bytes (by decide) (by omega)
  have h3 := length_data_le (f := 3) rq.name.bytes (by decide) (by omega)
  have h4 := length_num_le (f := 4) rq.offset.toUInt64 (by decide)
  have h5 := length_num32 (f := 5) rq.size.toUInt32 (by decide)
  have h6 := length_hash_le (f := 6) rq.hash (by decide)
  have h7 := length_optional_le (p := rq.fromTemporary ≠ 0) (length_num_le (f := 7) 1 (by decide))
  have h9 := length_optional_le (p := rq.blockNo ≠ 0)
    (length_num32 (f := 9) rq.blockNo.toUInt32 (by decide))
  rw [requestBytes, requestFields]
  simp only [List.cons_append, List.nil_append, List.flatMap_cons, List.flatMap_append,
    List.length_append]
  omega

/-- **Request.** -/
theorem decodeRequest_bytes {rq : Request} (hflag : rq.fromTemporary = 0 ∨ rq.fromTemporary = 1) :
    decodeRequest (requestBytes rq) = some rq := by
  let rq₁ : Request :=
    { Request.zero with
      id := rq.id
      folder := rq.folder
      name := rq.name
      offset := rq.offset
      size := rq.size }
  let rq₂ : Request := { rq₁ with hash := rq.hash }
  let rq₃ : Request := { rq₂ with fromTemporary := rq.fromTemporary }
  have hlen := length_requestBytes rq
  have h1 : assignAll storeRequest Request.zero
      [.num 1 rq.id.toUInt32.toUInt64, .data 2 rq.folder.bytes, .data 3 rq.name.bytes,
        .num 4 rq.offset.toUInt64, .num 5 rq.size.toUInt32.toUInt64] = some rq₁ := by
    simp [assignAll, List.foldlM_cons, storeRequest, Field.number, Field.value, toInt_toUInt32, rq₁]
  have h2 : assignAll storeRequest rq₁ (rq.hash.toList.map fun h => .data 6 h.1) = some rq₂ := by
    cases hr : rq.hash with
    | none => simp [assignAll_nil, rq₂, rq₁, hr, Request.zero]
    | some h =>
      simp [assignAll, List.foldlM_cons, storeRequest, Field.number, Field.value, rq₂, hr, h.2]
  have h3 : assignAll storeRequest rq₂ (optional (rq.fromTemporary ≠ 0) (.num 7 1)) = some rq₃ := by
    refine assignAll_optional (fun hp => ?_) fun hn => ?_
    · simp [storeRequest, Field.number, Field.value, rq₃, hflag.resolve_left hp, toInt]
    · simp [rq₃, rq₂, rq₁, not_not.mp hn, Request.zero]
  have h4 : assignAll storeRequest rq₃
      (optional (rq.blockNo ≠ 0) (.num 9 rq.blockNo.toUInt32.toUInt64)) = some rq := by
    refine assignAll_optional (fun _ => ?_) fun hn => ?_
    · simp [storeRequest, Field.number, Field.value, rq₃, rq₂, rq₁, toInt_toUInt32]
    · simp only [rq₃, rq₂, rq₁, Request.zero]
      cases rq
      simp only at hn
      rw [not_not.mp hn]
  rw [decodeRequest, requestBytes, readMessage_assignAll (by rw [← requestBytes]; omega), requestFields]
  rw [List.append_assoc, List.append_assoc, assignAll_append h1, assignAll_append h2, assignAll_append h3, h4]

/-! ## Response -/

structure Response where
  id : Int32
  data : Bytes
  code : Int32
  deriving DecidableEq

def Response.zero : Response := ⟨0, [], 0⟩

/-- `bep_encode_response` -/
def encodeResponse (rs : Response) (cap : Nat) : Option Bytes :=
  let w := (Writer.init cap).writeUint64 1 rs.id.toUInt32.toUInt64
  let w := if 0 < rs.data.length then w.writeBytes 2 rs.data else w
  let w := if rs.code ≠ 0 then w.writeUint64 3 rs.code.toUInt32.toUInt64 else w
  if w.error then none else some w.buf

def storeResponse (rs : Response) (f : UInt32) : Value → Option Response
  | .num v => some (if f = 1 then { rs with id := toInt v }
      else if f = 3 then { rs with code := toInt v } else rs)
  | .data b => some (if f = 2 then { rs with data := b } else rs)
  | .fixed => some rs

/-- `bep_decode_response` -/
def decodeResponse (b : Bytes) : Option Response := readMessage storeResponse Response.zero b

def responseFields (rs : Response) : List Field :=
  .num 1 rs.id.toUInt32.toUInt64 :: optional (0 < rs.data.length) (.data 2 rs.data) ++
    optional (rs.code ≠ 0) (.num 3 rs.code.toUInt32.toUInt64)

def responseBytes (rs : Response) : Bytes := (responseFields rs).flatMap Field.bytes

theorem encodeResponse_eq (rs : Response) (cap : Nat) :
    encodeResponse rs cap = if (responseBytes rs).length ≤ cap then some (responseBytes rs) else none := by
  have h1 := (Writer.wrote_init cap).writeUint64 1 rs.id.toUInt32.toUInt64
  have h2 := Wrote.optional (p := 0 < rs.data.length) h1 (h1.writeBytes 2 rs.data)
  have h3 := Wrote.optional (p := rs.code ≠ 0) h2 (h2.writeUint64 3 rs.code.toUInt32.toUInt64)
  have hbytes : responseBytes rs = [] ++ (Field.num 1 rs.id.toUInt32.toUInt64).bytes ++
      (optional (0 < rs.data.length) (.data 2 rs.data)).flatMap Field.bytes ++
      (optional (rs.code ≠ 0) (.num 3 rs.code.toUInt32.toUInt64)).flatMap Field.bytes := by
    simp only [responseBytes, responseFields, List.cons_append, List.flatMap_cons, List.flatMap_append,
      List.nil_append, List.append_assoc]
  rw [← hbytes] at h3
  exact h3.returned

/-- **Response.** -/
theorem decodeResponse_bytes {rs : Response} (hlen : (responseBytes rs).length < 2 ^ 64) :
    decodeResponse (responseBytes rs) = some rs := by
  let rs₁ : Response := { Response.zero with id := rs.id }
  let rs₂ : Response := { rs₁ with data := rs.data }
  have h1 : storeResponse Response.zero 1 (.num rs.id.toUInt32.toUInt64) = some rs₁ := by
    simp [storeResponse, rs₁, toInt_toUInt32]
  have h2 : assignAll storeResponse rs₁ (optional (0 < rs.data.length) (.data 2 rs.data)) = some rs₂ := by
    refine assignAll_optional (fun _ => ?_) fun hn => ?_
    · simp [storeResponse, Field.number, Field.value, rs₂]
    · have hdata : rs.data = [] := List.length_eq_zero_iff.mp (by omega)
      simp [rs₂, rs₁, hdata, Response.zero]
  have h3 : assignAll storeResponse rs₂ (optional (rs.code ≠ 0) (.num 3 rs.code.toUInt32.toUInt64)) =
      some rs := by
    refine assignAll_optional (fun _ => ?_) fun hn => ?_
    · simp [storeResponse, Field.number, Field.value, rs₂, rs₁, toInt_toUInt32]
    · simp only [rs₂, rs₁, Response.zero]
      cases rs
      simp only at hn
      rw [not_not.mp hn]
  rw [decodeResponse, responseBytes, readMessage_assignAll hlen, responseFields]
  simp only [List.cons_append]
  rw [assignAll_cons h1, assignAll_append h2, h3]

/-! ## The main result -/

/-- **ClusterConfig, Request and Response.** No device and no folder is too long for its buffer; the
loop of the sender ends with the message, whatever size its buffer has at first; and what is sent is
what is read, of every message that fits. -/
theorem messages_round_trip :
    (∀ d : Device, (deviceWriter d).error = false) ∧
    (∀ f : Folder, (folderWriter f).error = false) ∧
    (∀ (cc : ClusterConfig) (granted : Nat → Bool), (∀ i, granted i = true) →
      ∀ (z : Lz4) (mem : Bool) (accepts : Nat → Nat) (c : Conn) (out : Bytes),
        ∃ body, sendClusterConfig z granted mem accepts c out cc =
            some (sendMessage z mem accepts c bepClusterConfig body) ∧
          decodeClusterConfig body = some cc) ∧
    (∀ (cc : ClusterConfig) (cap : Nat) (body : Bytes), encodeClusterConfig cc cap = some body →
      decodeClusterConfig body = some cc) ∧
    (∀ rq : Request, rq.fromTemporary = 0 ∨ rq.fromTemporary = 1 → ∀ cap,
      (500 ≤ cap → (encodeRequest rq cap).isSome) ∧
      ∀ body, encodeRequest rq cap = some body → decodeRequest body = some rq) ∧
    (∀ (rs : Response) (cap : Nat), cap < 2 ^ 31 →
      ((encodeResponse rs cap).isSome ↔ (responseBytes rs).length ≤ cap) ∧
      ∀ body, encodeResponse rs cap = some body → decodeResponse body = some rs) := by
  refine ⟨deviceWriter_ok, folderWriter_ok, fun cc granted hg z mem accepts c out => ?_,
    fun cc cap body h => ?_, fun rq hflag cap => ⟨fun hcap => ?_, fun body h => ?_⟩,
    fun rs cap hcap => ⟨?_, fun body h => ?_⟩⟩
  · have hlen := length_clusterBytes cc
    have hmax : bepMsgMax = 1114112 := rfl
    obtain ⟨out', hout⟩ : ∃ out', encodeGrow (encodeClusterConfig cc) granted bepMsgMax 0 out =
        some (out', clusterBytes cc) :=
      encodeGrow_eq hg (by omega) (encodeClusterConfig_eq cc) (Nat.le_add_left bepMsgMax out.length)
    refine ⟨clusterBytes cc, ?_, decodeClusterConfig_bytes cc⟩
    rw [sendClusterConfig, hout]
    rfl
  · obtain ⟨rfl, -⟩ := Writer.returned_eq (encodeClusterConfig_eq cc cap) h
    exact decodeClusterConfig_bytes cc
  · rw [Writer.returned_isSome (encodeRequest_eq rq cap)]
    exact Nat.le_trans (length_requestBytes rq) hcap
  · obtain ⟨rfl, -⟩ := Writer.returned_eq (encodeRequest_eq rq cap) h
    exact decodeRequest_bytes hflag
  · exact Writer.returned_isSome (encodeResponse_eq rs cap)
  · obtain ⟨rfl, hle⟩ := Writer.returned_eq (encodeResponse_eq rs cap) h
    exact decodeResponse_bytes (by omega)

def oneFolder : ClusterConfig where
  folders := [⟨.ofBytes _ [102], .ofBytes _ [70], 1, [⟨Device.zero.id, .ofBytes _ [97], 7, 9⟩], by decide⟩]
  room := by decide

/-- From a buffer of no bytes at all. -/
theorem oneFolder_arrives :
    ∃ body, sendClusterConfig ⟨fun _ _ => [], fun _ _ => none⟩ (fun _ => true) true (fun _ => 3) freshConn []
        oneFolder = some (sendMessage ⟨fun _ _ => [], fun _ _ => none⟩ true (fun _ => 3) freshConn
          bepClusterConfig body) ∧
      decodeClusterConfig body = some oneFolder :=
  messages_round_trip.2.2.1 oneFolder (fun _ => true) (fun _ => rfl) _ _ _ _ _

end Messages

end Amisync
