import Amisync.DeviceId
import Amisync.Types
import Amisync.Lib.Roster
import Amisync.Lib.TextLines

/-!
# The configuration file (`config.c`)

`config_load` reads `key = value` lines into a buffer of 256 bytes. The daemon
also writes to the file: a peer or a folder that is added at runtime becomes a
line of its own.

* `configLoad`: the settings, peers and folders of a text.
* `configAppendPeer`, `configAppendFolder`: the text after one more line.
* `peers_foldl`, `folders_foldl`: a line offers one peer or one folder at most,
  and the tables take what has room and is new.
* `configLoad_eq`: a text is loaded line by line, wherever it ends.
* `configLoad_append`: an added line is loaded between the lines of the old text.
-/

namespace Amisync.ConfigFile

open Ctype

/-! ## The record -/

def configPathMax : Nat := 128
def configLogfileMax : Nat := 128
def configPortnameMax : Nat := 32
def configNameMax : Nat := 64
def configHostMax : Nat := 64
def configFolderIdMax : Nat := 64
def configMaxPeers : Nat := 16
def configMaxFolders : Nat := 8
def configDefaultPort : Nat := 22000

structure ConfigPeer where
  id : Str
  host : Str
  port : Nat
  deriving DecidableEq, Repr

structure ConfigFolder where
  id : Str
  label : Str
  path : Str
  mode : FolderMode
  deriving DecidableEq, Repr

/-- Everything but the two tables. -/
structure Settings where
  logfile : Str
  rexxPort : Str
  logLevel : Int
  logMaxKb : Int
  certPath : Str
  keyPath : Str
  statedir : Str
  keepDeletes : Int
  deviceName : Str
  listenPort : Nat
  discovery : Bool
  compression : Bool
  compressionSet : Bool
  maxSendKb : Int
  sockBufKb : Int
  window : Int
  serialLog : Bool
  appicon : Bool
  versioning : Bool
  tzOffsetS : Int
  tzOffsetSet : Bool
  tzFromLocale : Bool
  deriving DecidableEq, Repr

/-- What is only kept at runtime is left out. -/
@[ext]
structure Config where
  settings : Settings
  peers : List ConfigPeer
  folders : List ConfigFolder
  deriving DecidableEq, Repr

def configDefaults : Config where
  settings :=
    { logfile := ascii "T:amisync.log"
      rexxPort := ascii "AMISYNC"
      logLevel := 1
      logMaxKb := 256
      certPath := ascii "ENVARC:Amisync/cert.pem"
      keyPath := ascii "ENVARC:Amisync/key.pem"
      statedir := ascii "ENVARC:Amisync/state"
      keepDeletes := 180
      deviceName := ascii "amisync"
      listenPort := configDefaultPort
      discovery := true
      compression := true
      compressionSet := false
      maxSendKb := 0
      sockBufKb := 0
      window := configMaxWindow
      serialLog := false
      appicon := true
      versioning := false
      tzOffsetS := 0
      tzOffsetSet := false
      tzFromLocale := false }
  peers := []
  folders := []

/-! ## Words -/

def parseBool : Str → Bool
  | c :: cs =>
    c = 49 || c = 121 || c = 89 || c = 116 || c = 84 ||
      ((c = 111 || c = 79) && (cs.head? = some 110 || cs.head? = some 78))
  | [] => false

def ciEqual : Str → Str → Bool
  | [], [] => true
  | a :: as, b :: bs => tolower a = tolower b && ciEqual as bs
  | _, _ => false

/-- `set_field` -/
def setField (cap : Nat) (value : Str) : Str := value.take (cap - 1)

def quote : UInt8 := 34

/-- `next_token`: the token, and what comes after it. -/
def nextToken (cap : Nat) (s : Str) : Option (Str × Str) :=
  match s.dropWhile isspace with
  | [] => none
  | c :: q =>
    if c = quote then
      let tok := (q.takeWhile (· ≠ quote)).take (cap - 1)
      let rest := q.drop tok.length
      some (tok, if rest.head? = some quote then rest.tail else rest)
    else
      let tok := ((c :: q).takeWhile fun d => !isspace d).take (cap - 1)
      some (tok, (c :: q).drop tok.length)

/-- A token that may be missing is empty then. -/
def tokenOr (cap : Nat) (s : Str) : Str × Str := (nextToken cap s).getD ([], s)

/-- An `int` stored in an `unsigned short`. -/
def toUShort (n : Int) : Nat := (n % 2 ^ 16).toNat

def blank (c : UInt8) : Bool := c = 32 || c = 9

/-- One or two digits. -/
def upToTwo : Str → Option (Nat × Str)
  | c :: d :: s =>
    if !isdigit c then none
    else if isdigit d then some (10 * (c - 48).toNat + (d - 48).toNat, s)
    else some ((c - 48).toNat, d :: s)
  | [c] => if isdigit c then some ((c - 48).toNat, []) else none
  | [] => none

/-- `parse_tz_offset` -/
def parseTzOffset (v : Str) : Option Int :=
  let v := v.dropWhile blank
  let minus := v.head? = some 45
  let v := if v.head? = some 43 || minus then v.tail else v
  (upToTwo v).bind fun (hh, v) =>
    let minutes := if v.head? = some 58 || v.head? = some 46 then upToTwo v.tail else some (0, v)
    minutes.bind fun (mm, v) =>
      if v.dropWhile blank ≠ [] then none
      else if 14 < hh || 59 < mm || (hh = 14 && 0 < mm) then none
      else
        let secs : Int := hh * 3600 + mm * 60
        some (if minus then -secs else secs)

/-! ## The two tables -/

/-- Host and port of an address; a port that is missing is 0. -/
def splitPort (host : Str) : Str × Nat :=
  match strrchr 58 host with
  | some (before, after) => (before, toUShort (atol after))
  | none => (host, 0)

/-- The peer that a `peer` line is about. -/
def parsePeer (value : Str) : Option ConfigPeer :=
  let t := tokenOr deviceIdBufsz value
  let host := (tokenOr configHostMax t.2).1
  if t.1 = [] || (deviceIdNormalize t.1).isNone then none
  else if host = [] then some ⟨setField deviceIdBufsz t.1, [], 0⟩
  else
    let r := splitPort host
    some ⟨setField deviceIdBufsz t.1, setField configHostMax r.1,
      if r.2 = 0 then configDefaultPort else r.2⟩

def addPeer (peers : List ConfigPeer) (value : Str) : List ConfigPeer :=
  if configMaxPeers ≤ peers.length then peers
  else match parsePeer value with
    | none => peers
    | some p =>
      match deviceIdNormalize p.id with
      | none => peers
      | some canon => if peers.any (fun q => deviceIdEqual q.id canon) then peers else peers ++ [p]

def parseMode (word : Str) : FolderMode :=
  if ciEqual word (ascii "sendonly") then .sendOnly
  else if ciEqual word (ascii "receiveonly") then .receiveOnly
  else .sendReceive

/-- The folder that a `folder` line is about. -/
def parseFolder (value : Str) : Option ConfigFolder :=
  (nextToken configFolderIdMax value).bind fun (id, rest) =>
    (nextToken configPathMax rest).bind fun (path, rest) =>
      match nextToken 16 rest with
      | none => some ⟨id, setField configNameMax id, path, .sendReceive⟩
      | some (word, rest) =>
        match nextToken configNameMax rest with
        | none => some ⟨id, setField configNameMax id, path, parseMode word⟩
        | some (label, _) => some ⟨id, label, path, parseMode word⟩

/-- The source looks for the id twice in a row. -/
def addFolder (folders : List ConfigFolder) (value : Str) : List ConfigFolder :=
  if configMaxFolders ≤ folders.length then folders
  else match parseFolder value with
    | none => folders
    | some f => if folders.any (fun g => g.id = f.id) then folders else folders ++ [f]

/-! ## One line -/

def positive (n : Int) : Int := if 0 < n then n else 0

def applyScalar (s : Settings) (key value : Str) : Settings :=
  if ciEqual key (ascii "logfile") then { s with logfile := setField configLogfileMax value }
  else if ciEqual key (ascii "rexxport") then { s with rexxPort := setField configPortnameMax value }
  else if ciEqual key (ascii "certfile") then { s with certPath := setField configPathMax value }
  else if ciEqual key (ascii "keyfile") then { s with keyPath := setField configPathMax value }
  else if ciEqual key (ascii "statedir") then { s with statedir := setField configPathMax value }
  else if ciEqual key (ascii "logmax") then { s with logMaxKb := atol value }
  else if ciEqual key (ascii "keepdeletes") then { s with keepDeletes := atol value }
  else if ciEqual key (ascii "devicename") then { s with deviceName := setField configNameMax value }
  else if ciEqual key (ascii "listenport") then { s with listenPort := toUShort (atol value) }
  else if ciEqual key (ascii "discovery") then { s with discovery := parseBool value }
  else if ciEqual key (ascii "compression") then
    if ciEqual value (ascii "metadata") || ciEqual value (ascii "never") then
      { s with compression := ciEqual value (ascii "metadata"), compressionSet := true }
    else s
  else if ciEqual key (ascii "maxsend") then { s with maxSendKb := positive (atol value) }
  else if ciEqual key (ascii "sockbuf") then { s with sockBufKb := positive (atol value) }
  else if ciEqual key (ascii "window") then { s with window := max 1 (min (atol value) configMaxWindow) }
  else if ciEqual key (ascii "seriallog") then { s with serialLog := parseBool value }
  else if ciEqual key (ascii "appicon") then { s with appicon := parseBool value }
  else if ciEqual key (ascii "versioning") then { s with versioning := parseBool value }
  else if ciEqual key (ascii "tzoffset") then
    if ciEqual value (ascii "locale") then { s with tzFromLocale := true }
    else match parseTzOffset value with
      | some secs => { s with tzOffsetS := secs, tzOffsetSet := true }
      | none => s
  else if ciEqual key (ascii "loglevel") then
    if ciEqual value (ascii "debug") then { s with logLevel := 0 }
    else if ciEqual value (ascii "info") then { s with logLevel := 1 }
    else if ciEqual value (ascii "warn") then { s with logLevel := 2 }
    else if ciEqual value (ascii "error") then { s with logLevel := 3 }
    else { s with logLevel := atol value }
  else s

/-- `apply_setting`. All keys are different, so that the tables can come first here. -/
def applySetting (cfg : Config) (key value : Str) : Config :=
  if ciEqual key (ascii "peer") then { cfg with peers := addPeer cfg.peers value }
  else if ciEqual key (ascii "folder") then { cfg with folders := addFolder cfg.folders value }
  else { cfg with settings := applyScalar cfg.settings key value }

/-- Key and value of a line, if it has them. -/
def parseLine (line : Str) : Option (Str × Str) :=
  match trim line with
  | [] => none
  | c :: p =>
    if c = 59 || c = 35 || c = 91 then none
    else if 61 ∈ c :: p then
      some (trim ((c :: p).takeWhile (· ≠ 61)), trim ((c :: p).dropWhile (· ≠ 61)).tail)
    else none

def applyLine (cfg : Config) (line : Str) : Config :=
  match parseLine line with
  | none => cfg
  | some (key, value) => applySetting cfg key value

/-- The body of the loop of `config_load`, for what one `fgets` returns. The buffer has 256 bytes. -/
def loadPieces (cfg : Config) (pieces : List Str) : Config := pieces.foldl applyLine cfg

def lineRoom : Nat := 255

def nl : UInt8 := 10

/-- `config_load`; a file that is not there changes nothing. -/
def configLoad (file : Option Str) (cfg : Config) : Config :=
  match file with
  | none => cfg
  | some text => loadPieces cfg (TextLines.pieces nl lineRoom text)

/-! ## The document -/

def confdocMaxBytes : Nat := 1024 * 1024

def runtimeNote : Str := ascii "; added at runtime:"

/-- `is_anchor_line` -/
def isAnchorLine (key s : Str) : Bool :=
  let s := s.dropWhile fun c => blank c || c = 59 || c = 35
  key.isPrefixOf s && ((s.drop key.length).dropWhile blank).head? = some 61

/-- The last line for which `p` holds. -/
def lastIdx (p : Str → Bool) (ls : List Str) : Option Nat :=
  ls.zipIdx.foldl (fun a q => if p q.1 then some q.2 else a) none

/-- The text with two lines more, from line `i` on. -/
def inserted (ls : List Str) (i : Nat) (line : Str) : Str :=
  TextLines.unlines nl (ls.take i ++ [runtimeNote, line] ++ ls.drop i)

/-- `append_after_anchor`, where every read and write succeeds: a file that is too long to be
edited, or whose name leaves no room for that of a copy, is appended to as it is. -/
def appendAfterAnchor (path : Str) (file : Option Str) (line key : Str) : Str :=
  let text := file.getD []
  if text.length ≤ confdocMaxBytes && path.length + 5 < 160 then
    let ls := TextLines.lines nl text
    inserted ls ((lastIdx (isAnchorLine key) ls).elim ls.length (· + 1)) line
  else text ++ runtimeNote ++ [nl] ++ line ++ [nl]

/-- `text_field_safe` -/
def textFieldSafe (s : Str) : Bool := s.all fun c => !(c < 32 || c = 127) && c ≠ quote

def peerLine (id host : Str) (port : Nat) : Str :=
  let start := ascii "peer = " ++ id.take (deviceIdBufsz - 1)
  if host ≠ [] ∧ port ≠ 0 then start ++ [32] ++ host.take (configHostMax - 1) ++ [58] ++ decimal port
  else if host ≠ [] then start ++ [32] ++ host.take (configHostMax - 1)
  else start

/-- `config_append_peer`; `[]` stands for no host. -/
def configAppendPeer (path : Str) (file : Option Str) (id host : Str) (port : Nat) : Option Str :=
  if textFieldSafe id && textFieldSafe host then
    some (appendAfterAnchor path file (peerLine id host port) (ascii "peer"))
  else none

def modeWord : FolderMode → Str
  | .sendOnly => ascii "sendonly"
  | .receiveOnly => ascii "receiveonly"
  | .sendReceive => ascii "sendreceive"

/-- In quotes, if there is a blank in it. -/
def quoted (cap : Nat) (s : Str) : Str :=
  let q := if s.any blank then [quote] else []
  q ++ s.take (cap - 1) ++ q

def folderLine (id path : Str) (mode : FolderMode) (label : Str) : Str :=
  let line := ascii "folder = " ++ id.take (configFolderIdMax - 1) ++ [32] ++ quoted configPathMax path ++
    [32] ++ modeWord mode
  if label ≠ [] ∧ label ≠ id then line ++ [32] ++ quoted configNameMax label else line

/-- `config_append_folder`; `[]` stands for no label. -/
def configAppendFolder (path : Str) (file : Option Str) (id fpath : Str) (mode : FolderMode)
    (label : Str) : Option Str :=
  if textFieldSafe id && textFieldSafe fpath && textFieldSafe label then
    some (appendAfterAnchor path file (folderLine id fpath mode label) (ascii "folder"))
  else none

/-! ## What a line offers -/

def settingOf (line : Str) : Option (Str × Str) :=
  (parseLine line).bind fun kv =>
    if ciEqual kv.1 (ascii "peer") || ciEqual kv.1 (ascii "folder") then none else some kv

def peerOf (line : Str) : Option ConfigPeer :=
  (parseLine line).bind fun kv => if ciEqual kv.1 (ascii "peer") then parsePeer kv.2 else none

def folderOf (line : Str) : Option ConfigFolder :=
  (parseLine line).bind fun kv => if ciEqual kv.1 (ascii "folder") then parseFolder kv.2 else none

def peerKey (p : ConfigPeer) : Option Str := deviceIdNormalize p.id

theorem length_of_ciEqual {a b : Str} (h : ciEqual a b = true) : a.length = b.length := by
  induction a generalizing b with
  | nil =>
    cases b with
    | nil => rfl
    | cons => simp [ciEqual] at h
  | cons x a ih =>
    cases b with
    | nil => simp [ciEqual] at h
    | cons y b =>
      simp only [ciEqual, Bool.and_eq_true] at h
      rw [List.length_cons, List.length_cons, ih h.2]

theorem folder_not_peer {key : Str} (h : ciEqual key (ascii "folder") = true) :
    ciEqual key (ascii "peer") = false := by
  by_contra hp
  rw [Bool.not_eq_false] at hp
  have hlen := (length_of_ciEqual h).symm.trans (length_of_ciEqual hp)
  exact absurd hlen (by decide)

theorem mem_takeWhile_length {s : Str} {cap : Nat} (h : 0 < cap) (p : UInt8 → Bool) :
    ((s.takeWhile p).take (cap - 1)).length < cap := by
  rw [List.length_take]
  omega

/-- A token fits its buffer. -/
theorem length_nextToken {cap : Nat} {s tok rest : Str} (hcap : 0 < cap)
    (h : nextToken cap s = some (tok, rest)) : tok.length < cap := by
  unfold nextToken at h
  split at h
  · simp at h
  · split at h
    all_goals
      simp only [Option.some.injEq, Prod.mk.injEq] at h
      rw [← h.1]
      exact mem_takeWhile_length hcap _

theorem length_tokenOr {cap : Nat} (hcap : 0 < cap) (s : Str) : (tokenOr cap s).1.length < cap := by
  unfold tokenOr
  cases h : nextToken cap s with
  | none => exact hcap
  | some r => exact length_nextToken hcap h

theorem setField_of_length {cap : Nat} {s : Str} (h : s.length < cap) : setField cap s = s :=
  List.take_of_length_le (by omega)

/-- A peer that is offered has the id of the first word. -/
theorem peerKey_of_token {value : Str} {p : ConfigPeer} (h : parsePeer value = some p) :
    peerKey p = deviceIdNormalize (tokenOr deviceIdBufsz value).1 ∧ peerKey p ≠ none := by
  unfold parsePeer at h
  have hshort := setField_of_length (length_tokenOr (by decide : 0 < deviceIdBufsz) value)
  dsimp only at h
  split at h
  · simp at h
  · rename_i hok
    have hne : deviceIdNormalize (tokenOr deviceIdBufsz value).1 ≠ none := by
      intro hnone
      simp [hnone] at hok
    split at h
    all_goals
      obtain rfl := Option.some.inj h
      unfold peerKey
      rw [hshort]
      exact ⟨rfl, hne⟩

/-- It is a normal form. -/
theorem peerKey_of_parsePeer {value : Str} {p : ConfigPeer} (h : parsePeer value = some p) :
    ∃ canon, peerKey p = some canon ∧ deviceIdNormalize canon = some canon := by
  obtain ⟨canon, hc⟩ := Option.ne_none_iff_exists'.mp (peerKey_of_token h).2
  exact ⟨canon, hc, normalize_of_normalize hc⟩

/-- A valid id in the first word is enough. -/
theorem parsePeer_of_token {value canon : Str} (h : deviceIdNormalize (tokenOr deviceIdBufsz value).1 = some canon) :
    ∃ p, parsePeer value = some p := by
  have hne : (tokenOr deviceIdBufsz value).1 ≠ [] := by
    intro hnil
    rw [hnil] at h
    simp [deviceIdNormalize, collectId] at h
  unfold parsePeer
  dsimp only
  rw [if_neg (by simp [hne, h])]
  split <;> exact ⟨_, rfl⟩

theorem addPeer_eq (peers : List ConfigPeer) (value : Str) :
    addPeer peers value =
      Roster.run peerKey configMaxPeers peers (parsePeer value).toList := by
  unfold addPeer
  cases hp : parsePeer value with
  | none => simp [Roster.run]
  | some p =>
    obtain ⟨canon, hkey, hcanon⟩ := peerKey_of_parsePeer hp
    simp only [Option.toList_some, Roster.run, List.foldl_cons, List.foldl_nil, Roster.add]
    have hid : deviceIdNormalize p.id = some canon := hkey
    have hany : peers.any (fun q => deviceIdEqual q.id canon) = peers.any fun q => peerKey q = peerKey p := by
      refine List.any_congr rfl ?_
      intro q
      rw [Bool.eq_iff_iff, deviceIdEqual_iff hcanon, hkey, decide_eq_true_iff]
      rfl
    rw [hid]
    dsimp only
    rw [hany]

theorem addFolder_eq (folders : List ConfigFolder) (value : Str) :
    addFolder folders value =
      Roster.run ConfigFolder.id configMaxFolders folders (parseFolder value).toList := by
  unfold addFolder
  cases parseFolder value with
  | none => simp [Roster.run]
  | some f => simp [Roster.run, Roster.add]

/-! ## What a text offers -/

section Pieces
variable (cfg : Config) (pieces : List Str)

theorem folders_foldl : (loadPieces cfg pieces).folders =
    Roster.run ConfigFolder.id configMaxFolders cfg.folders (pieces.filterMap folderOf) := by
  induction pieces generalizing cfg with
  | nil => rfl
  | cons l pieces ih =>
    have hstep : (applyLine cfg l).folders =
        Roster.run ConfigFolder.id configMaxFolders cfg.folders (folderOf l).toList := by
      unfold applyLine folderOf
      cases parseLine l with
      | none => rfl
      | some kv =>
        dsimp only [Option.bind_some]
        unfold applySetting
        cases hf : ciEqual kv.1 (ascii "folder") with
        | true =>
          rw [folder_not_peer hf]
          exact addFolder_eq cfg.folders kv.2
        | false => cases ciEqual kv.1 (ascii "peer") <;> rfl
    have hrest := ih (applyLine cfg l)
    rw [hstep] at hrest
    refine hrest.trans ?_
    rw [← Roster.run_append]
    cases hl : folderOf l <;> simp [hl]

theorem peers_foldl : (loadPieces cfg pieces).peers =
    Roster.run peerKey configMaxPeers cfg.peers (pieces.filterMap peerOf) := by
  induction pieces generalizing cfg with
  | nil => rfl
  | cons l pieces ih =>
    have hstep : (applyLine cfg l).peers =
        Roster.run peerKey configMaxPeers cfg.peers (peerOf l).toList := by
      unfold applyLine peerOf
      cases parseLine l with
      | none => rfl
      | some kv =>
        dsimp only [Option.bind_some]
        unfold applySetting
        cases ciEqual kv.1 (ascii "peer") with
        | true => exact addPeer_eq cfg.peers kv.2
        | false => cases ciEqual kv.1 (ascii "folder") <;> rfl
    have hrest := ih (applyLine cfg l)
    rw [hstep] at hrest
    refine hrest.trans ?_
    rw [← Roster.run_append]
    cases hl : peerOf l <;> simp [hl]

theorem settings_foldl : (loadPieces cfg pieces).settings =
    (pieces.filterMap settingOf).foldl (fun s kv => applyScalar s kv.1 kv.2) cfg.settings := by
  induction pieces generalizing cfg with
  | nil => rfl
  | cons l pieces ih =>
    have hstep : (applyLine cfg l).settings =
        (settingOf l).toList.foldl (fun s kv => applyScalar s kv.1 kv.2) cfg.settings := by
      unfold applyLine settingOf
      cases parseLine l with
      | none => rfl
      | some kv =>
        dsimp only [Option.bind_some]
        unfold applySetting
        cases ciEqual kv.1 (ascii "peer") <;> cases ciEqual kv.1 (ascii "folder") <;> rfl
    have hrest := ih (applyLine cfg l)
    rw [hstep] at hrest
    refine hrest.trans ?_
    rw [← List.foldl_append]
    cases hl : settingOf l <;> simp [hl]

end Pieces

/-! ## Line by line -/

theorem parseLine_end (l : Str) : parseLine (l ++ [nl]) = parseLine l := by
  unfold parseLine
  rw [trim_append_blank (s := l) (w := [nl]) (List.forall_mem_singleton.mpr rfl)]

def loadLine (cfg : Config) (l : Str) : Config :=
  loadPieces cfg (TextLines.pieces nl lineRoom (l ++ [nl]))

theorem loadPieces_append (cfg : Config) (ps qs : List Str) :
    loadPieces cfg (ps ++ qs) = loadPieces (loadPieces cfg ps) qs :=
  List.foldl_append

/-- A line end more after the text changes nothing. -/
theorem loadPieces_end (cfg : Config) (text : Str) :
    loadPieces cfg (TextLines.pieces nl lineRoom (text ++ [nl])) =
      loadPieces cfg (TextLines.pieces nl lineRoom text) := by
  obtain ⟨ps, r, h, h'⟩ := TextLines.pieces_concat nl lineRoom text
  rw [h, h', loadPieces_append, loadPieces_append]
  have hlast : ∀ c, loadPieces c [r ++ [nl]] = loadPieces c [r] := by
    intro c
    simp only [loadPieces, List.foldl_cons, List.foldl_nil, applyLine]
    rw [parseLine_end]
  rw [hlast]
  split
  · rename_i hr
    rw [hr]
    rfl
  · rfl

theorem loadPieces_unlines (cfg : Config) (ls : List Str) :
    loadPieces cfg (TextLines.pieces nl lineRoom (TextLines.unlines nl ls)) = ls.foldl loadLine cfg := by
  rw [TextLines.pieces_unlines]
  induction ls generalizing cfg with
  | nil => rfl
  | cons l ls ih =>
    rw [List.flatMap_cons, loadPieces_append]
    exact ih _

/-- **Loading.** A text is loaded line by line. -/
theorem configLoad_eq (text : Str) (cfg : Config) :
    configLoad (some text) cfg = (TextLines.lines nl text).foldl loadLine cfg := by
  rw [← loadPieces_unlines]
  rcases TextLines.unlines_lines nl text with h | h
  · rw [h]
    rfl
  · rw [h, loadPieces_end]
    rfl

/-! ## One more line -/

/-- Nothing is glued to the last line: the file is edited line by line, or its last line has an end. -/
def Carried (path text : Str) : Prop :=
  (text.length ≤ confdocMaxBytes ∧ path.length + 5 < 160) ∨ text = [] ∨ text.getLast? = some nl

theorem loadLine_runtimeNote (cfg : Config) : loadLine cfg runtimeNote = cfg := by
  unfold loadLine
  rw [TextLines.pieces_short (by decide) (by decide)]
  rfl

theorem foldl_note_line (cfg : Config) (pre post : List Str) (line : Str) :
    (pre ++ [runtimeNote, line] ++ post).foldl loadLine cfg =
      post.foldl loadLine (loadLine (pre.foldl loadLine cfg) line) := by
  rw [List.foldl_append, List.foldl_append, List.foldl_cons, loadLine_runtimeNote]
  rfl

/-- **One more line.** It is loaded between lines of the text as it was. -/
theorem configLoad_append {path text : Str} (hc : Carried path text) (line key : Str) (cfg : Config) :
    ∃ pre post, TextLines.lines nl text = pre ++ post ∧
      configLoad (some (appendAfterAnchor path (some text) line key)) cfg =
        post.foldl loadLine (loadLine (pre.foldl loadLine cfg) line) := by
  unfold appendAfterAnchor
  dsimp only [Option.getD_some]
  split
  · generalize hi : (lastIdx (isAnchorLine key) (TextLines.lines nl text)).elim
      (TextLines.lines nl text).length (· + 1) = i
    refine ⟨(TextLines.lines nl text).take i, (TextLines.lines nl text).drop i,
      (List.take_append_drop _ _).symm, ?_⟩
    rw [← foldl_note_line, ← loadPieces_unlines]
    rfl
  · rename_i hlong
    have hended : TextLines.unlines nl (TextLines.lines nl text) = text := by
      rcases hc with ⟨h, h'⟩ | rfl | h
      · exact absurd (by simp [h, h']) hlong
      · rfl
      · obtain ⟨t, rfl⟩ := List.getLast?_eq_some_iff.mp h
        exact TextLines.unlines_lines_end t
    refine ⟨TextLines.lines nl text, [], (List.append_nil _).symm, ?_⟩
    rw [← foldl_note_line, ← loadPieces_unlines]
    have hsplit : TextLines.unlines nl (TextLines.lines nl text ++ [runtimeNote, line] ++ []) =
        text ++ runtimeNote ++ [nl] ++ line ++ [nl] := by
      rw [List.append_nil, TextLines.unlines, List.flatMap_append]
      rw [← TextLines.unlines, hended]
      simp
    rw [hsplit]
    rfl

/-- What a text says where the note is glued to the end of it. -/
def noted (text : Str) (cfg : Config) : Config := configLoad (some (text ++ runtimeNote)) cfg

/-- A line is loaded after the whole text with the note. -/
theorem configLoad_glued {path text : Str} (hc : ¬ Carried path text) (line key : Str) (cfg : Config) :
    configLoad (some (appendAfterAnchor path (some text) line key)) cfg = loadLine (noted text cfg) line := by
  unfold Carried at hc
  push Not at hc
  have hedit : ¬ (text.length ≤ confdocMaxBytes && path.length + 5 < 160) = true := by
    intro h
    rw [Bool.and_eq_true, decide_eq_true_iff, decide_eq_true_iff] at h
    have := hc.1 h.1
    omega
  have hload : noted text cfg = (TextLines.lines nl (text ++ runtimeNote ++ [nl])).foldl loadLine cfg := by
    rw [← loadPieces_unlines, TextLines.unlines_lines_end, loadPieces_end]
    rfl
  have hline : ∀ c, loadLine c line = [line].foldl loadLine c := fun _ => rfl
  unfold appendAfterAnchor
  dsimp only [Option.getD_some]
  rw [if_neg hedit, hload, hline, ← List.foldl_append, ← loadPieces_unlines, TextLines.unlines,
    List.flatMap_append, ← TextLines.unlines, TextLines.unlines_lines_end]
  simp [configLoad]

end Amisync.ConfigFile
