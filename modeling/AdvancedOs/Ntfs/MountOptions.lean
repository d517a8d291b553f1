import Mathlib

/-!
# Mount options

`parse_options` goes through the options of a mount or a remount, separated by commas. An option
that lacks its argument or has a wrong one ends it at once. An unknown option counts as an error,
which ends it after the last option unless `sloppy` is among them. An option that names a character
set loads its table, and the table of an earlier one is unloaded. Every table that is loaded is a
reference that has to be dropped.

Whatever the options, the references that the loop over them has taken when it ends are those for
the table it holds (`parseTokens_references`). It holds one if some option loads a table and none
before it ends the loop (`parseTokens_nlsMap`). A new volume gets its table and one reference if the
options are `Accepted`. If they are not, a table that has been loaded stays so (`parseOptions_new`),
and so it does on a remount (`parseOptions_of_some`).

The table is taken over before the last check. A volume that can fail it has its table already, so
nothing of a volume is changed by options that are refused (`volume_of_refused`).
-/

namespace AdvancedOs.Ntfs.MountOptions

open List Except

/-! ### Options -/

/-- What the parser calls: `load_nls`, `load_nls_default`, `simple_strtoul` with a base, which
returns the number and what is left of the text, and `make_kuid` and `make_kgid`, which return
`none` for an invalid id. -/
structure Kernel (Table : Type) where
  loadNls : String → Option Table
  loadNlsDefault : Option Table
  simpleStrtoul : String → ℕ → ℕ × String
  makeKuid : ℕ → Option ℕ
  makeKgid : ℕ → Option ℕ

inductive Refusal
  | needsArg (name : String)
  | needsBool (name : String)
  | needsVal (name value : String)
  | charsetNotFound (charset : String)
  | unrecognizedOptions
  | invalidErrors
  | changesNls
  | noDefaultNls
  | changesMftZoneMultiplier
deriving DecidableEq

/-- An option with what stands behind its first `=`. -/
structure Token where
  name : String
  value : Option String
deriving DecidableEq

open Token

/-- What the names of options stand for. -/
inductive Kind
  | uid | gid | umask | fmask | dmask | mftZoneMultiplier | sloppy
  | showSysFiles | caseSensitive | disableSparse | errors
  /-- An option of the past that is ignored. -/
  | obsolete
  | nls | utf8 | unknown
deriving DecidableEq

def Token.kind (token : Token) : Kind :=
  if token.name = "uid" then .uid
  else if token.name = "gid" then .gid
  else if token.name = "umask" then .umask
  else if token.name = "fmask" then .fmask
  else if token.name = "dmask" then .dmask
  else if token.name = "mft_zone_multiplier" then .mftZoneMultiplier
  else if token.name = "sloppy" then .sloppy
  else if token.name = "show_sys_files" then .showSysFiles
  else if token.name = "case_sensitive" then .caseSensitive
  else if token.name = "disable_sparse" then .disableSparse
  else if token.name = "errors" then .errors
  else if token.name = "posix" ∨ token.name = "show_inodes" then .obsolete
  else if token.name = "nls" ∨ token.name = "iocharset" then .nls
  else if token.name = "utf8" then .utf8
  else .unknown

/-- The option in a part of the text between commas. -/
def Token.ofChars (chars : List Char) : Token where
  name := String.ofList (chars.takeWhile (· ≠ '='))
  value := if '=' ∈ chars then some (String.ofList ((chars.dropWhile (· ≠ '=')).drop 1)) else none

/-- The options of a text. There are none without a text and in an empty one. -/
def tokens : Option String → List Token
  | none => []
  | some opt => if opt = "" then [] else (opt.toList.splitOn ',').map ofChars

/-! ### Arguments -/

def Token.missing (token : Token) : Bool := token.value = none || token.value = some ""

def Token.argument (token : Token) : Except Refusal String :=
  match token.value with
  | some v => if v = "" then .error (.needsArg token.name) else .ok v
  | none => .error (.needsArg token.name)

section

variable {Table : Type} (kernel : Kernel Table)

def Token.number (token : Token) (base : ℕ) (v : String) : Except Refusal ℕ :=
  if (kernel.simpleStrtoul v base).2 = "" then .ok (kernel.simpleStrtoul v base).1
  else .error (.needsVal token.name v)

def Token.numberArgument (token : Token) (base : ℕ) : Except Refusal ℕ := do
  let v ← token.argument
  token.number kernel base v

def Token.idArgument (token : Token) (make : ℕ → Option ℕ) : Except Refusal ℕ := do
  let v ← token.argument
  let n ← token.number kernel 0 v
  match make (n % 2 ^ 32) with
  | some id => .ok id
  | none => .error (.needsVal token.name v)

def simpleGetbool : Option String → Option Bool
  | none => some true
  | some s =>
    if s = "1" ∨ s = "yes" ∨ s = "true" then some true
    else if s = "0" ∨ s = "no" ∨ s = "false" then some false
    else none

def Token.boolArgument (token : Token) : Except Refusal Bool :=
  match simpleGetbool token.value with
  | some val => .ok val
  | none => .error (.needsBool token.name)

def onErrorsArr : List (ℕ × String) :=
  [(0x01, "panic"), (0x02, "remount-ro"), (0x04, "continue"), (0x10, "recover")]

/-- The entry of `on_errors_arr` that an option names. -/
def Token.errorsArgument (token : Token) : Except Refusal ℕ := do
  let v ← token.argument
  match onErrorsArr.find? fun entry => entry.2 = v with
  | some entry => .ok entry.1
  | none => .error (.needsVal token.name v)

end

/-! ### The parser -/

/-- The local variables of `parse_options`, and the number of references that are held in the
system. A mask of `0xffff` and a multiplier of `-1` stand for none, as in the source. -/
structure Settings (Table : Type) where
  errors : ℕ
  sloppy : ℤ
  uid : Option ℕ
  gid : Option ℕ
  fmask : ℕ
  dmask : ℕ
  mftZoneMultiplier : ℤ
  onErrors : Option ℕ
  showSysFiles : Option Bool
  caseSensitive : Option Bool
  disableSparse : Option Bool
  nlsMap : Option Table
  references : ℤ

def Settings.start {Table : Type} (references : ℤ) : Settings Table where
  errors := 0
  sloppy := 0
  uid := none
  gid := none
  fmask := 0xffff
  dmask := 0xffff
  mftZoneMultiplier := -1
  onErrors := none
  showSysFiles := none
  caseSensitive := none
  disableSparse := none
  nlsMap := none
  references := references

/-- The part of `ntfs_volume` that holds what the options set. -/
structure Volume (Table : Type) where
  nlsMap : Option Table
  mftZoneMultiplier : ℤ
  onErrors : ℕ
  uid : ℕ
  gid : ℕ
  fmask : ℕ
  dmask : ℕ
  showSystemFiles : Bool
  caseSensitive : Bool
  sparseEnabled : Bool
  majorVer : ℕ

/-- The volume as `ntfs_fill_super` sets it up before the options. -/
def Volume.new {Table : Type} : Volume Table where
  nlsMap := none
  mftZoneMultiplier := 0
  onErrors := 0
  uid := 0
  gid := 0
  fmask := 0o177
  dmask := 0o077
  showSystemFiles := false
  caseSensitive := false
  sparseEnabled := true
  majorVer := 0

section

variable {Table : Type} (kernel : Kernel Table)

/-- The value of an `int` that is set from a number. -/
def intOf (n : ℕ) : ℤ := Int.bmod n (2 ^ 32)

def Settings.useCharset (settings : Settings Table) (charset : String) :
    Except Refusal (Settings Table) :=
  match kernel.loadNls charset, settings.nlsMap with
  | some table, none =>
    .ok { settings with nlsMap := some table, references := settings.references + 1 }
  | some table, some _ =>
    -- The new table is loaded and the old one is unloaded.
    .ok { settings with nlsMap := some table, references := settings.references + 1 - 1 }
  | none, none => .error (.charsetNotFound charset)
  | none, some _ => .ok settings

/-- The options `nls` and `iocharset`. -/
def Settings.parseNls (settings : Settings Table) (token : Token) :
    Except Refusal (Settings Table) := do
  let charset ← token.argument
  settings.useCharset kernel charset

/-- The option `utf8`, which stands for `nls=utf8`. -/
def Settings.parseUtf8 (settings : Settings Table) (token : Token) :
    Except Refusal (Settings Table) :=
  if token.missing then settings.useCharset kernel "utf8"
  else do
    let val ← token.boolArgument
    if val then settings.useCharset kernel "utf8" else .ok settings

/-- The option `sloppy`, which needs no argument. -/
def Settings.parseSloppy (settings : Settings Table) (token : Token) :
    Except Refusal (Settings Table) :=
  if token.missing then .ok { settings with sloppy := 1 }
  else do
    let n ← token.numberArgument kernel 0
    return { settings with sloppy := intOf n }

/-- The body of the loop of `parse_options`. -/
def parseOption (settings : Settings Table) (token : Token) : Except Refusal (Settings Table) :=
  match token.kind with
  | .uid => do
    let id ← token.idArgument kernel kernel.makeKuid
    return { settings with uid := some id }
  | .gid => do
    let id ← token.idArgument kernel kernel.makeKgid
    return { settings with gid := some id }
  | .umask => do
    let n ← token.numberArgument kernel 8
    return { settings with fmask := n % 2 ^ 16, dmask := n % 2 ^ 16 }
  | .fmask => do
    let n ← token.numberArgument kernel 8
    return { settings with fmask := n % 2 ^ 16 }
  | .dmask => do
    let n ← token.numberArgument kernel 8
    return { settings with dmask := n % 2 ^ 16 }
  | .mftZoneMultiplier => do
    let n ← token.numberArgument kernel 0
    return { settings with mftZoneMultiplier := intOf n }
  | .sloppy => settings.parseSloppy kernel token
  | .showSysFiles => do
    let val ← token.boolArgument
    return { settings with showSysFiles := some val }
  | .caseSensitive => do
    let val ← token.boolArgument
    return { settings with caseSensitive := some val }
  | .disableSparse => do
    let val ← token.boolArgument
    return { settings with disableSparse := some val }
  | .errors => do
    let flag ← token.errorsArgument
    return { settings with onErrors := some (settings.onErrors.getD 0 ||| flag) }
  | .obsolete => .ok settings
  | .nls => settings.parseNls kernel token
  | .utf8 => settings.parseUtf8 kernel token
  | .unknown =>
    .ok { settings with
      errors := if settings.errors < 2 ^ 31 - 1 then settings.errors + 1 else settings.errors }

/-- The loop of `parse_options`, with the variables where it ends and why it has been left. -/
def parseTokens (settings : Settings Table) : List Token → Settings Table × Option Refusal
  | [] => (settings, none)
  | token :: rest =>
    match parseOption kernel settings token with
    | .ok next => parseTokens next rest
    | .error refusal => (settings, some refusal)

/-- The volume, the references in the system and the refusal, if any, when `parse_options`
returns. -/
structure Parsed (Table : Type) where
  volume : Volume Table
  references : ℤ
  refusal : Option Refusal

def Settings.applyRest (settings : Settings Table) (volume : Volume Table) : Volume Table :=
  let onErrors := settings.onErrors.getD volume.onErrors
  { volume with
    mftZoneMultiplier := if volume.mftZoneMultiplier = 0 then 1 else volume.mftZoneMultiplier
    onErrors := if onErrors = 0 ∨ onErrors = 0x10 then onErrors ||| 0x04 else onErrors
    uid := settings.uid.getD volume.uid
    gid := settings.gid.getD volume.gid
    fmask := if settings.fmask ≠ 0xffff then settings.fmask else volume.fmask
    dmask := if settings.dmask ≠ 0xffff then settings.dmask else volume.dmask
    showSystemFiles := settings.showSysFiles.getD volume.showSystemFiles
    caseSensitive := settings.caseSensitive.getD volume.caseSensitive
    sparseEnabled :=
      match settings.disableSparse with
      | none => volume.sparseEnabled
      | some true => false
      | some false =>
        -- Sparse files are not enabled on a volume of a version below 3.
        volume.sparseEnabled || !(volume.majorVer ≠ 0 && volume.majorVer < 3) }

/-- `parse_options` from the test of the multiplier on. -/
def Settings.apply (settings : Settings Table) (volume : Volume Table) (references : ℤ) :
    Parsed Table :=
  if settings.mftZoneMultiplier ≠ -1 then
    if volume.mftZoneMultiplier ≠ 0 ∧ volume.mftZoneMultiplier ≠ settings.mftZoneMultiplier then
      ⟨volume, references, some .changesMftZoneMultiplier⟩
    else
      let multiplier :=
        if settings.mftZoneMultiplier < 1 ∨ 4 < settings.mftZoneMultiplier then 1
        else settings.mftZoneMultiplier
      ⟨settings.applyRest { volume with mftZoneMultiplier := multiplier }, references, none⟩
  else ⟨settings.applyRest volume, references, none⟩

variable [DecidableEq Table]

def Settings.finish (settings : Settings Table) (volume : Volume Table) : Parsed Table :=
  if settings.errors ≠ 0 ∧ settings.sloppy = 0 then
    ⟨volume, settings.references, some .unrecognizedOptions⟩
  else if settings.onErrors = some 0 then ⟨volume, settings.references, some .invalidErrors⟩
  else
    match settings.nlsMap with
    | some table =>
      if volume.nlsMap ≠ none ∧ volume.nlsMap ≠ some table then
        ⟨volume, settings.references, some .changesNls⟩
      else settings.apply { volume with nlsMap := some table } settings.references
    | none =>
      if volume.nlsMap = none then
        match kernel.loadNlsDefault with
        | some table =>
          settings.apply { volume with nlsMap := some table } (settings.references + 1)
        | none => ⟨volume, settings.references, some .noDefaultNls⟩
      else settings.apply volume settings.references

/-- Embeds `parse_options`, with the number of references in the system. -/
def parseOptions (volume : Volume Table) (references : ℤ) (opt : Option String) : Parsed Table :=
  match parseTokens kernel (.start references) (tokens opt) with
  | (settings, some refusal) => ⟨volume, settings.references, some refusal⟩
  | (settings, none) => settings.finish kernel volume

end

/-! ### What options do -/

section

variable {Table : Type} (kernel : Kernel Table)

def Token.hasNumber (token : Token) (base : ℕ) : Bool :=
  !token.missing && (kernel.simpleStrtoul (token.value.getD "") base).2 = ""

def Token.hasId (token : Token) (make : ℕ → Option ℕ) : Bool :=
  token.hasNumber kernel 0 &&
    (make ((kernel.simpleStrtoul (token.value.getD "") 0).1 % 2 ^ 32)).isSome

/-- The option has the argument that it needs. -/
def Token.wellFormed (token : Token) : Bool :=
  match token.kind with
  | .uid => token.hasId kernel kernel.makeKuid
  | .gid => token.hasId kernel kernel.makeKgid
  | .umask | .fmask | .dmask => token.hasNumber kernel 8
  | .mftZoneMultiplier => token.hasNumber kernel 0
  | .sloppy => token.missing || token.hasNumber kernel 0
  | .showSysFiles | .caseSensitive | .disableSparse => (simpleGetbool token.value).isSome
  | .errors => !token.missing && (onErrorsArr.any fun entry => entry.2 = token.value.getD "")
  | .nls => !token.missing
  | .utf8 => token.missing || (simpleGetbool token.value).isSome
  | .obsolete | .unknown => true

def Token.charset (token : Token) : Option String :=
  match token.kind with
  | .nls => if token.missing then none else token.value
  | .utf8 => if token.missing || simpleGetbool token.value = some true then some "utf8" else none
  | _ => none

def Token.loads (token : Token) : Bool :=
  token.charset.any fun charset => (kernel.loadNls charset).isSome

def Token.misses (token : Token) : Bool :=
  token.charset.any fun charset => (kernel.loadNls charset).isNone

/-- The value that the option gives to `sloppy`. -/
def Token.sloppyValue (token : Token) : Option ℤ :=
  if token.kind = .sloppy then
    some (if token.missing then 1 else intOf (kernel.simpleStrtoul (token.value.getD "") 0).1)
  else none

def Loads (options : List Token) : Prop :=
  ∃ front token rest, options = front ++ token :: rest ∧ token.loads kernel = true ∧
    ∀ earlier ∈ front, earlier.wellFormed kernel = true ∧ earlier.misses kernel = false

/-- All options have the arguments that they need, one loads a table before the first that cannot,
unknown options come with `sloppy`, and the default table can be loaded if no option loads one. -/
structure Accepted (options : List Token) : Prop where
  wellFormed : ∀ token ∈ options, token.wellFormed kernel = true
  loads_of_misses : (∃ token ∈ options, token.misses kernel = true) → Loads kernel options
  sloppy_of_unknown : (∃ token ∈ options, token.kind = .unknown) →
    (options.filterMap (sloppyValue kernel)).getLastD 0 ≠ 0
  nlsMap : Loads kernel options ∨ kernel.loadNlsDefault ≠ none

end

/-! ### When an option is refused -/

section

variable {Table : Type} (kernel : Kernel Table) (token : Token)

theorem isOk_bind_return {α β : Type} (x : Except Refusal α) (f : α → β) :
    (x >>= fun a => pure (f a)).isOk = x.isOk := by
  cases x <;> rfl

theorem Token.argument_ok {token : Token} (h : token.missing = false) :
    token.argument = .ok (token.value.getD "") := by
  cases hval : token.value with
  | none => simp [missing, hval] at h
  | some v =>
    have hv : v ≠ "" := by simpa [missing, hval] using h
    simp [argument, hval, hv]

theorem Token.argument_error {token : Token} (h : token.missing = true) :
    token.argument = .error (.needsArg token.name) := by
  cases hval : token.value with
  | none => simp [argument, hval]
  | some v =>
    have hv : v = "" := by simpa [missing, hval] using h
    simp [argument, hval, hv]

theorem Token.isOk_numberArgument (base : ℕ) :
    (token.numberArgument kernel base).isOk = token.hasNumber kernel base := by
  unfold hasNumber numberArgument number
  cases hmiss : token.missing with
  | true => rw [argument_error hmiss]; rfl
  | false =>
    rw [argument_ok hmiss]
    by_cases hrest : (kernel.simpleStrtoul (token.value.getD "") base).2 = ""
    · simp [hrest, bind, Except.bind, Except.toBool]
    · simp [hrest, bind, Except.bind, Except.toBool]

theorem Token.isOk_idArgument (make : ℕ → Option ℕ) :
    (token.idArgument kernel make).isOk = token.hasId kernel make := by
  unfold hasId hasNumber idArgument number
  cases hmiss : token.missing with
  | true => rw [argument_error hmiss]; rfl
  | false =>
    rw [argument_ok hmiss]
    by_cases hrest : (kernel.simpleStrtoul (token.value.getD "") 0).2 = ""
    · cases hmake : make ((kernel.simpleStrtoul (token.value.getD "") 0).1 % 2 ^ 32) <;>
        simp [hrest, hmake, bind, Except.bind, Except.toBool, -Nat.reducePow]
    · simp [hrest, bind, Except.bind, Except.toBool]

theorem Token.isOk_boolArgument : token.boolArgument.isOk = (simpleGetbool token.value).isSome := by
  unfold boolArgument
  cases simpleGetbool token.value <;> rfl

theorem Token.isOk_errorsArgument : token.errorsArgument.isOk =
    (!token.missing && onErrorsArr.any fun entry => entry.2 = token.value.getD "") := by
  unfold errorsArgument
  cases hmiss : token.missing with
  | true => rw [argument_error hmiss]; rfl
  | false =>
    rw [argument_ok hmiss, ← isSome_find?]
    cases hfind : onErrorsArr.find? fun entry => entry.2 = token.value.getD "" <;>
      simp [hfind, bind, Except.bind, Except.toBool]

theorem isOk_useCharset (settings : Settings Table) (charset : String) :
    (settings.useCharset kernel charset).isOk =
      ((kernel.loadNls charset).isSome || settings.nlsMap.isSome) := by
  unfold Settings.useCharset
  cases kernel.loadNls charset <;> cases settings.nlsMap <;> rfl

theorem Token.value_of_missing {token : Token} (h : token.missing = false) :
    token.value = some (token.value.getD "") := by
  cases hval : token.value with
  | none => simp [missing, hval] at h
  | some v => rfl

theorem isOk_parseNls (settings : Settings Table) (hkind : token.kind = .nls) :
    (settings.parseNls kernel token).isOk =
      (!token.missing && (!token.misses kernel || settings.nlsMap.isSome)) := by
  unfold Settings.parseNls misses charset
  cases hmiss : token.missing with
  | true => rw [argument_error hmiss]; rfl
  | false =>
    rw [argument_ok hmiss, hkind, value_of_missing hmiss]
    refine (isOk_useCharset kernel settings _).trans ?_
    cases hload : kernel.loadNls (token.value.getD "") <;> simp [hload]

theorem isOk_parseUtf8 (settings : Settings Table) (hkind : token.kind = .utf8) :
    (settings.parseUtf8 kernel token).isOk =
      ((token.missing || (simpleGetbool token.value).isSome) &&
        (!token.misses kernel || settings.nlsMap.isSome)) := by
  have huse : (settings.useCharset kernel "utf8").isOk =
      (!(kernel.loadNls "utf8").isNone || settings.nlsMap.isSome) := by
    rw [isOk_useCharset, Option.not_isNone]
  unfold Settings.parseUtf8 misses charset boolArgument
  rw [hkind]
  cases hmiss : token.missing with
  | true => simpa using huse
  | false =>
    rcases hbool : simpleGetbool token.value with - | - | -
    · rfl
    · rfl
    · simpa [bind, Except.bind] using huse

theorem isOk_parseOption (settings : Settings Table) : (parseOption kernel settings token).isOk =
    (token.wellFormed kernel && (!token.misses kernel || settings.nlsMap.isSome)) := by
  cases hkind : token.kind
  case nls =>
    simpa only [parseOption, wellFormed, hkind] using isOk_parseNls kernel token settings hkind
  case utf8 =>
    simpa only [parseOption, wellFormed, hkind] using isOk_parseUtf8 kernel token settings hkind
  case sloppy =>
    simp only [parseOption, wellFormed, misses, charset, hkind, Settings.parseSloppy]
    cases hmiss : token.missing with
    | true => rfl
    | false =>
      rw [if_neg (by simp), isOk_bind_return, isOk_numberArgument]
      simp
  case obsolete => simp only [parseOption, wellFormed, misses, charset, hkind]; rfl
  case unknown => simp only [parseOption, wellFormed, misses, charset, hkind]; rfl
  all_goals
    simp only [parseOption, wellFormed, misses, charset, hkind,
      isOk_bind_return, isOk_idArgument, isOk_numberArgument,
      isOk_boolArgument, isOk_errorsArgument, Option.any_none, Bool.not_false,
      Bool.true_or, Bool.and_true]

end

/-! ### What an option changes -/

section

variable {Table : Type} {kernel : Kernel Table}

def held (nlsMap : Option Table) : ℤ := if nlsMap.isSome then 1 else 0

@[simp]
theorem held_none : held (none : Option Table) = 0 := rfl

theorem held_of_isSome {nlsMap : Option Table} (h : nlsMap.isSome = true) : held nlsMap = 1 :=
  if_pos h

/-- What an option changes in the variables that decide what becomes of the references. -/
structure Effect (kernel : Kernel Table) (token : Token) (settings next : Settings Table) :
    Prop where
  references : next.references - held next.nlsMap = settings.references - held settings.nlsMap
  nlsMap : next.nlsMap.isSome = (settings.nlsMap.isSome || token.loads kernel)
  errors : next.errors ≠ 0 ↔ settings.errors ≠ 0 ∨ token.kind = .unknown
  sloppy : next.sloppy = (token.sloppyValue kernel).getD settings.sloppy
  onErrors : settings.onErrors ≠ some 0 → next.onErrors ≠ some 0

theorem eq_of_bind_return {α β : Type} {x : Except Refusal α} {f : α → β} {b : β}
    (h : (x >>= fun a => pure (f a)) = .ok b) : ∃ a, x = .ok a ∧ f a = b := by
  cases x with
  | error refusal => cases h
  | ok a => exact ⟨a, rfl, ok.inj h⟩

variable {token : Token} {settings next : Settings Table}

theorem Effect.of_eq (hchar : token.charset = none) (hkind : token.kind ≠ .unknown)
    (hrefs : next.references = settings.references) (hnls : next.nlsMap = settings.nlsMap)
    (herro : next.errors = settings.errors)
    (hslop : next.sloppy = (token.sloppyValue kernel).getD settings.sloppy)
    (honErrors : settings.onErrors ≠ some 0 → next.onErrors ≠ some 0) :
    Effect kernel token settings next where
  references := by rw [hrefs, hnls]
  nlsMap := by simp [hnls, loads, hchar]
  errors := by simp [herro, hkind]
  sloppy := hslop
  onErrors := honErrors

theorem effect_useCharset {charset : String} (hchar : token.charset = some charset)
    (hkind : token.kind = .nls ∨ token.kind = .utf8)
    (h : settings.useCharset kernel charset = .ok next) : Effect kernel token settings next := by
  have hslop : token.sloppyValue kernel = none := by
    rcases hkind with hkind | hkind <;> simp [sloppyValue, hkind]
  have hkn : token.kind ≠ .unknown := by
    rcases hkind with hkind | hkind <;> simp [hkind]
  have hloads : token.loads kernel = (kernel.loadNls charset).isSome := by
    simp [loads, hchar]
  unfold Settings.useCharset at h
  cases hload : kernel.loadNls charset <;> cases hnls : settings.nlsMap <;>
    simp only [hload, hnls, Except.ok.injEq, reduceCtorEq] at h <;> subst h
  all_goals
    refine ⟨?_, ?_, by simp [hkn], by simp [hslop], fun hne => hne⟩
    · simp [held, hnls]
    · simp [hloads, hload]

theorem effect_parseNls (hkind : token.kind = .nls)
    (h : settings.parseNls kernel token = .ok next) : Effect kernel token settings next := by
  unfold Settings.parseNls at h
  cases hmiss : token.missing with
  | true => rw [argument_error hmiss] at h; cases h
  | false =>
    rw [argument_ok hmiss] at h
    refine effect_useCharset ?_ (.inl hkind) h
    rw [← value_of_missing hmiss]
    simp [charset, hkind, hmiss]

theorem effect_parseUtf8 (hkind : token.kind = .utf8)
    (h : settings.parseUtf8 kernel token = .ok next) : Effect kernel token settings next := by
  unfold Settings.parseUtf8 boolArgument at h
  cases hmiss : token.missing with
  | true =>
    rw [if_pos hmiss] at h
    exact effect_useCharset (by simp [charset, hkind, hmiss]) (.inr hkind) h
  | false =>
    rw [if_neg (by simp [hmiss])] at h
    rcases hbool : simpleGetbool token.value with - | - | - <;> rw [hbool] at h
    · cases h
    · obtain rfl := ok.inj h
      exact Effect.of_eq (by simp [charset, hkind, hmiss, hbool]) (by simp [hkind]) rfl rfl rfl
        (by simp [sloppyValue, hkind]) fun hne => hne
    · exact effect_useCharset (by simp [charset, hkind, hbool]) (.inr hkind) h

theorem effect_setSloppy (hkind : token.kind = .sloppy) {value : ℤ}
    (hval : token.sloppyValue kernel = some value) :
    Effect kernel token settings { settings with sloppy := value } :=
  Effect.of_eq (by simp [charset, hkind]) (by simp [hkind]) rfl rfl rfl (by simp [hval])
    fun hne => hne

theorem effect_parseSloppy (hkind : token.kind = .sloppy)
    (h : settings.parseSloppy kernel token = .ok next) : Effect kernel token settings next := by
  unfold Settings.parseSloppy at h
  cases hmiss : token.missing with
  | true =>
    rw [if_pos hmiss] at h
    obtain rfl := ok.inj h
    exact effect_setSloppy hkind (by simp [sloppyValue, hkind, hmiss])
  | false =>
    rw [if_neg (by simp [hmiss])] at h
    obtain ⟨n, hn, rfl⟩ := eq_of_bind_return h
    have hval : n = (kernel.simpleStrtoul (token.value.getD "") 0).1 := by
      unfold numberArgument number at hn
      rw [argument_ok hmiss] at hn
      by_cases hrest : (kernel.simpleStrtoul (token.value.getD "") 0).2 = ""
      · simpa [hrest, bind, Except.bind, eq_comm] using hn
      · simp [hrest, bind, Except.bind] at hn
    refine effect_setSloppy hkind ?_
    rw [sloppyValue, if_pos hkind, if_neg (by simp [hmiss]), hval]

theorem errorsArgument_ne_zero {flag : ℕ} (h : token.errorsArgument = .ok flag) : flag ≠ 0 := by
  unfold errorsArgument at h
  cases hmiss : token.missing with
  | true => rw [argument_error hmiss] at h; cases h
  | false =>
    rw [argument_ok hmiss] at h
    cases hfind : onErrorsArr.find? fun entry => entry.2 = token.value.getD "" with
    | none => simp [hfind, bind, Except.bind] at h
    | some entry =>
      have hflag : entry.1 = flag := by simpa [hfind, bind, Except.bind] using h
      have hall : ∀ entry ∈ onErrorsArr, entry.1 ≠ 0 := by decide
      exact hflag ▸ hall entry (mem_of_find?_eq_some hfind)

theorem effect_parseOption (h : parseOption kernel settings token = .ok next) :
    Effect kernel token settings next := by
  unfold parseOption at h
  cases hkind : token.kind <;> simp only [hkind] at h
  case nls => exact effect_parseNls hkind h
  case utf8 => exact effect_parseUtf8 hkind h
  case sloppy => exact effect_parseSloppy hkind h
  case unknown =>
    obtain rfl := ok.inj h
    refine ⟨rfl, by simp [loads, charset, hkind], ?_, by simp [sloppyValue, hkind], fun hne => hne⟩
    split_ifs with hmax
    · simp [hkind]
    · simp only [hkind]
      omega
  case obsolete =>
    obtain rfl := ok.inj h
    exact Effect.of_eq (by simp [charset, hkind]) (by simp [hkind]) rfl rfl rfl
      (by simp [sloppyValue, hkind]) fun hne => hne
  case errors =>
    obtain ⟨flag, hflag, rfl⟩ := eq_of_bind_return h
    have hne := errorsArgument_ne_zero hflag
    refine Effect.of_eq (by simp [charset, hkind]) (by simp [hkind]) rfl rfl rfl
      (by simp [sloppyValue, hkind]) fun _ hzero => hne ?_
    exact (Nat.or_eq_zero_iff.mp (Option.some.inj hzero)).2
  all_goals
    obtain ⟨value, -, rfl⟩ := eq_of_bind_return h
    exact Effect.of_eq (by simp [charset, hkind]) (by simp [hkind]) rfl rfl rfl
      (by simp [sloppyValue, hkind]) fun hne => hne

end

/-! ### All options -/

section

variable {Table : Type} {kernel : Kernel Table} {token : Token} {settings : Settings Table}

theorem Token.wellFormed_of_charset {charset : String} (h : token.charset = some charset) :
    token.wellFormed kernel = true := by
  unfold Token.charset at h
  unfold wellFormed
  cases hkind : token.kind <;> simp only [hkind, reduceCtorEq] at h ⊢
  case nls => simpa using (Option.ite_none_left_eq_some.mp h).1
  case utf8 =>
    have hasks : token.missing = true ∨ simpleGetbool token.value = some true := by
      by_contra hno
      simp [not_or.mp hno] at h
    rcases hasks with hmiss | hbool
    · simp [hmiss]
    · simp [hbool]

theorem Token.wellFormed_of_loads (h : token.loads kernel = true) :
    token.wellFormed kernel = true := by
  cases hchar : token.charset with
  | none => simp [loads, hchar] at h
  | some charset => exact wellFormed_of_charset hchar

theorem Token.misses_of_loads (h : token.loads kernel = true) : token.misses kernel = false := by
  cases hchar : token.charset with
  | none => simp [loads, hchar] at h
  | some charset =>
    simp only [loads, misses, hchar, Option.any_some] at h ⊢
    simp [h]

theorem loads_cons {rest : List Token} : Loads kernel (token :: rest) ↔ token.loads kernel = true ∨
    (token.wellFormed kernel = true ∧ token.misses kernel = false ∧ Loads kernel rest) := by
  constructor
  · rintro ⟨front, loading, tail, heq, hloads, hfr⟩
    cases front with
    | nil =>
      obtain ⟨rfl, rfl⟩ := List.cons.inj heq
      exact .inl hloads
    | cons first front =>
      obtain ⟨rfl, rfl⟩ := List.cons.inj heq
      have hfst := hfr token mem_cons_self
      exact .inr ⟨hfst.1, hfst.2, front, loading, tail, rfl, hloads, fun earlier hearl =>
        hfr earlier (mem_cons_of_mem _ hearl)⟩
  · rintro (hloads | ⟨hform, hmiss, front, loading, tail, rfl, hloads, hfr⟩)
    · exact ⟨[], token, rest, rfl, hloads, by simp⟩
    · refine ⟨token :: front, loading, tail, rfl, hloads, ?_⟩
      rintro earlier (_ | ⟨_, hearl⟩)
      · exact ⟨hform, hmiss⟩
      · exact hfr earlier hearl

theorem not_loads_nil : ¬ Loads kernel [] := by
  rintro ⟨front, loading, tail, heq, -⟩
  simp at heq

/-- The references that the parser has taken are those for the tables it holds. -/
theorem parseTokens_references (kernel : Kernel Table) (settings : Settings Table)
    (options : List Token) : (parseTokens kernel settings options).1.references =
      settings.references - held settings.nlsMap +
        held (parseTokens kernel settings options).1.nlsMap := by
  induction options generalizing settings with
  | nil => simp [parseTokens]
  | cons token rest ih =>
    rw [parseTokens]
    cases hopti : parseOption kernel settings token with
    | error refusal => simp
    | ok next =>
      have heffe := (effect_parseOption hopti).references
      rw [ih next, heffe]

theorem goesOn_iff (kernel : Kernel Table) (settings : Settings Table) (token : Token) :
    (∃ next, parseOption kernel settings token = .ok next) ↔ token.wellFormed kernel = true ∧
      (token.misses kernel = false ∨ settings.nlsMap.isSome = true) := by
  have hok := isOk_parseOption kernel token settings
  have hiff : (∃ next, parseOption kernel settings token = .ok next) ↔
      (parseOption kernel settings token).isOk = true := by
    cases parseOption kernel settings token with
    | error refusal => simp [Except.isOk, Except.toBool]
    | ok next => simp [Except.isOk, Except.toBool]
  rw [hiff, hok]
  simp

/-- The parser holds a table if it did before, or if an option loads one and none before it ends the
parser. -/
theorem parseTokens_nlsMap (kernel : Kernel Table) (settings : Settings Table)
    (options : List Token) : (parseTokens kernel settings options).1.nlsMap.isSome = true ↔
      settings.nlsMap.isSome = true ∨ Loads kernel options := by
  induction options generalizing settings with
  | nil => simp [parseTokens, not_loads_nil]
  | cons token rest ih =>
    have hgoes := goesOn_iff kernel settings token
    rw [parseTokens, loads_cons]
    cases hopti : parseOption kernel settings token with
    | error refusal =>
      have hends : ¬ (token.wellFormed kernel = true ∧
          (token.misses kernel = false ∨ settings.nlsMap.isSome = true)) := by
        rw [← hgoes, hopti]
        simp
      refine ⟨.inl, ?_⟩
      rintro (hsome | hloads | ⟨hform, hmiss, -⟩)
      · exact hsome
      · exact absurd ⟨wellFormed_of_loads hloads, .inl (misses_of_loads hloads)⟩ hends
      · exact absurd ⟨hform, .inl hmiss⟩ hends
    | ok next =>
      obtain ⟨hform, hmiss⟩ := hgoes.mp ⟨next, hopti⟩
      rw [ih next, (effect_parseOption hopti).nlsMap]
      by_cases hsome : settings.nlsMap.isSome = true
      · simp [hsome]
      · simp [hsome, hform, hmiss.resolve_right hsome]

theorem parseTokens_refusal (kernel : Kernel Table) (settings : Settings Table)
    (options : List Token) : (parseTokens kernel settings options).2 = none ↔
      (∀ token ∈ options, token.wellFormed kernel = true) ∧ (settings.nlsMap.isSome = true ∨
        ((∃ token ∈ options, token.misses kernel = true) → Loads kernel options)) := by
  induction options generalizing settings with
  | nil => simp [parseTokens]
  | cons token rest ih =>
    have hgoes := goesOn_iff kernel settings token
    rw [parseTokens, loads_cons]
    cases hopti : parseOption kernel settings token with
    | error refusal =>
      have hends : ¬ (token.wellFormed kernel = true ∧
          (token.misses kernel = false ∨ settings.nlsMap.isSome = true)) := by
        rw [← hgoes, hopti]
        simp
      simp only [reduceCtorEq, false_iff]
      rintro ⟨hform, hmap⟩
      have hhere := hform token mem_cons_self
      obtain ⟨hmisses, hnone⟩ := not_or.mp (not_and.mp hends hhere)
      have hmiss : token.misses kernel = true := by simpa using hmisses
      rcases hmap.resolve_left hnone ⟨token, mem_cons_self, hmiss⟩ with hloads | hrest
      · exact hmisses (misses_of_loads hloads)
      · exact hmisses hrest.2.1
    | ok next =>
      obtain ⟨hform, hmisses⟩ := hgoes.mp ⟨next, hopti⟩
      simp only [ih next, (effect_parseOption hopti).nlsMap, forall_mem_cons, hform, true_and]
      by_cases hsome : settings.nlsMap.isSome = true
      · simp [hsome]
      · have hfnd := hmisses.resolve_right hsome
        simp only [hsome, hfnd, mem_cons, exists_eq_or_imp, true_and]
        by_cases hloads : token.loads kernel = true <;> simp [hloads]

theorem parseTokens_rest {settings : Settings Table} {options : List Token}
    (h : (parseTokens kernel settings options).2 = none) :
    ((parseTokens kernel settings options).1.errors ≠ 0 ↔
      settings.errors ≠ 0 ∨ ∃ token ∈ options, token.kind = .unknown) ∧
    (parseTokens kernel settings options).1.sloppy =
      (options.filterMap (sloppyValue kernel)).getLastD settings.sloppy ∧
    (settings.onErrors ≠ some 0 → (parseTokens kernel settings options).1.onErrors ≠ some 0) := by
  induction options generalizing settings with
  | nil => simp [parseTokens]
  | cons token rest ih =>
    rw [parseTokens] at h ⊢
    cases hopti : parseOption kernel settings token with
    | error refusal => simp [hopti] at h
    | ok next =>
      rw [hopti] at h
      obtain ⟨herro, hslop, honErrors⟩ := ih h
      have heffe := effect_parseOption hopti
      refine ⟨?_, ?_, fun hne => honErrors (heffe.onErrors hne)⟩
      · rw [herro, heffe.errors, or_assoc]
        simp
      · rw [hslop, heffe.sloppy]
        cases hval : token.sloppyValue kernel with
        | none => simp [hval]
        | some value => rw [filterMap_cons_some hval, getLastD_cons]; rfl

theorem loads_iff (kernel : Kernel Table) (references : ℤ) (options : List Token) :
    (parseTokens kernel (.start references) options).1.nlsMap.isSome = true ↔
      Loads kernel options := by
  have hmap := parseTokens_nlsMap kernel (.start references) options
  rwa [show (Settings.start references : Settings Table).nlsMap.isSome = false from rfl,
    Bool.false_eq_true, false_or] at hmap

theorem parseTokens_start (kernel : Kernel Table) (references : ℤ) (options : List Token) :
    (parseTokens kernel (.start references) options).1.references =
      references + held (parseTokens kernel (.start references) options).1.nlsMap := by
  have hrefs := parseTokens_references kernel (.start references) options
  simpa [Settings.start] using hrefs

theorem references_cases (kernel : Kernel Table) (references : ℤ) (options : List Token) :
    (Loads kernel options → (parseTokens kernel (.start references) options).1.references =
      references + 1) ∧
    (¬ Loads kernel options → (parseTokens kernel (.start references) options).1.references =
      references) := by
  rw [parseTokens_start, ← loads_iff kernel references options]
  constructor
  · intro hsome
    rw [held_of_isSome hsome]
  · intro hsome
    rw [Option.not_isSome_iff_eq_none.mp hsome, held_none, Int.add_zero]

end

/-! ### The whole parser -/

section

variable {Table : Type} {kernel : Kernel Table}

theorem apply_spec (settings : Settings Table) (volume : Volume Table) (references : ℤ) :
    (settings.apply volume references).volume.nlsMap = volume.nlsMap ∧
      (settings.apply volume references).references = references ∧
      (volume.mftZoneMultiplier = 0 → (settings.apply volume references).refusal = none) := by
  unfold Settings.apply Settings.applyRest
  by_cases hset : settings.mftZoneMultiplier ≠ -1
  · rw [if_pos hset]
    by_cases hchg : volume.mftZoneMultiplier ≠ 0 ∧ volume.mftZoneMultiplier ≠
      settings.mftZoneMultiplier
    · rw [if_pos hchg]
      exact ⟨rfl, rfl, fun hzero => absurd hzero hchg.1⟩
    · rw [if_neg hchg]
      exact ⟨rfl, rfl, fun _ => rfl⟩
  · rw [if_neg hset]
    exact ⟨rfl, rfl, fun _ => rfl⟩

variable [DecidableEq Table]

theorem finish_of_some (settings : Settings Table) {volume : Volume Table}
    (h : volume.nlsMap.isSome = true) :
    (settings.finish kernel volume).volume.nlsMap.isSome = true ∧
      (settings.finish kernel volume).references = settings.references := by
  have hnone : volume.nlsMap ≠ none := Option.isSome_iff_ne_none.mp h
  unfold Settings.finish
  split_ifs
  · exact ⟨h, rfl⟩
  · exact ⟨h, rfl⟩
  · split
    case h_1 table _ =>
      split_ifs
      · exact ⟨h, rfl⟩
      · obtain ⟨hmap, hrefs, -⟩ :=
          apply_spec settings { volume with nlsMap := some table } settings.references
        exact ⟨by rw [hmap]; rfl, hrefs⟩
    case h_2 =>
      obtain ⟨hmap, hrefs, -⟩ := apply_spec settings volume settings.references
      exact ⟨by rw [hmap, h], hrefs⟩

/-- Assumes: the settings are not refused for `errors`. A new volume gets the table of the options,
or the default table with a reference for it, unless there are unknown options or no table. -/
theorem finish_new {settings : Settings Table} (honErrors : settings.onErrors ≠ some 0) :
    (((settings.errors ≠ 0 → settings.sloppy ≠ 0) ∧
      (settings.nlsMap.isSome = true ∨ kernel.loadNlsDefault ≠ none)) ∧
      (settings.finish kernel .new).refusal = none ∧
      (settings.finish kernel .new).volume.nlsMap.isSome = true ∧
      (settings.finish kernel .new).references = settings.references - held settings.nlsMap + 1) ∨
    (¬ ((settings.errors ≠ 0 → settings.sloppy ≠ 0) ∧
        (settings.nlsMap.isSome = true ∨ kernel.loadNlsDefault ≠ none)) ∧
      (settings.finish kernel .new).refusal ≠ none ∧
      (settings.finish kernel .new).references = settings.references) := by
  unfold Settings.finish
  by_cases herro : settings.errors ≠ 0 ∧ settings.sloppy = 0
  · rw [if_pos herro]
    exact .inr ⟨fun hok => hok.1 herro.1 herro.2, by simp, rfl⟩
  · have hslop : settings.errors ≠ 0 → settings.sloppy ≠ 0 := fun hne hzero => herro ⟨hne, hzero⟩
    rw [if_neg herro, if_neg honErrors]
    cases hmap : settings.nlsMap with
    | some table =>
      obtain ⟨hkeeps, hrefs, hrefu⟩ :=
        apply_spec settings { Volume.new with nlsMap := some table } settings.references
      refine .inl ⟨⟨hslop, .inl rfl⟩, hrefu rfl, ?_, ?_⟩
      · exact (congrArg Option.isSome hkeeps).trans rfl
      · refine hrefs.trans ?_
        simp [held]
    | none =>
      cases hdefa : kernel.loadNlsDefault with
      | some table =>
        obtain ⟨hkeeps, hrefs, hrefu⟩ :=
          apply_spec settings { Volume.new with nlsMap := some table } (settings.references + 1)
        refine .inl ⟨⟨hslop, .inr (by simp)⟩, hrefu rfl, ?_, ?_⟩
        · exact (congrArg Option.isSome hkeeps).trans rfl
        · refine hrefs.trans ?_
          simp [held]
      | none => exact .inr ⟨by simp, by simp [Volume.new], rfl⟩

/-- Assumes: the volume has a table. After a remount it still has, and there is one more reference
if the options load a table. -/
theorem parseOptions_of_some (kernel : Kernel Table) {volume : Volume Table}
    (h : volume.nlsMap.isSome = true) (references : ℤ) (opt : Option String) :
    (parseOptions kernel volume references opt).volume.nlsMap.isSome = true ∧
      (Loads kernel (tokens opt) →
        (parseOptions kernel volume references opt).references = references + 1) ∧
      (¬ Loads kernel (tokens opt) → (parseOptions kernel volume references opt).references =
      references) := by
  have hst := references_cases kernel references (tokens opt)
  unfold parseOptions
  rcases hpars : parseTokens kernel (.start references) (tokens opt) with ⟨settings, _ | refusal⟩
  · rw [hpars] at hst
    obtain ⟨hmap, hrefs⟩ := @finish_of_some _ kernel _ settings _ h
    exact ⟨hmap, by rw [hrefs]; exact hst⟩
  · rw [hpars] at hst
    exact ⟨h, hst⟩

/-- Options that are accepted give a new volume its table and take one reference. With others the
parser fails, and a reference stays behind if they load a table. -/
theorem parseOptions_new (kernel : Kernel Table) (references : ℤ) (opt : Option String) :
    (Accepted kernel (tokens opt) ∧ (parseOptions kernel .new references opt).refusal = none ∧
      (parseOptions kernel .new references opt).volume.nlsMap.isSome = true ∧
      (parseOptions kernel .new references opt).references = references + 1) ∨
    (¬ Accepted kernel (tokens opt) ∧ (parseOptions kernel .new references opt).refusal ≠ none ∧
      (Loads kernel (tokens opt) → (parseOptions kernel .new references opt).references =
      references + 1) ∧
      (¬ Loads kernel (tokens opt) → (parseOptions kernel .new references opt).references =
      references)) := by
  have hcs := references_cases kernel references (tokens opt)
  have hloads := loads_iff kernel references (tokens opt)
  have hst := parseTokens_start kernel references (tokens opt)
  have hleft := parseTokens_refusal kernel (.start references) (tokens opt)
  have hrest := @parseTokens_rest _ kernel (.start references) (tokens opt)
  unfold parseOptions
  rcases hpars : parseTokens kernel (.start references) (tokens opt) with ⟨settings, _ | refusal⟩
  · rw [hpars] at hcs hloads hst hleft hrest
    obtain ⟨hform, hmiss⟩ := hleft.mp rfl
    obtain ⟨herro, hslop, honErrors⟩ := hrest rfl
    dsimp only at hcs hloads hst herro hslop honErrors ⊢
    have hacc : Accepted kernel (tokens opt) ↔ (settings.errors ≠ 0 → settings.sloppy ≠ 0) ∧
          (settings.nlsMap.isSome = true ∨ kernel.loadNlsDefault ≠ none) := by
      rw [herro, hslop, hloads]
      constructor
      · intro hacc
        exact ⟨fun hunkn => hacc.sloppy_of_unknown (hunkn.resolve_left (by simp [Settings.start])),
          hacc.nlsMap⟩
      · rintro ⟨hkn, hmap⟩
        exact ⟨hform, hmiss.resolve_left (by simp [Settings.start]), fun hunkn =>
          hkn (.inr hunkn), hmap⟩
    rw [hacc]
    rcases @finish_new _ kernel _ settings (honErrors (by simp [Settings.start])) with
      ⟨hok, hrefu, hmap, hrefs⟩ | ⟨hno, hrefu, hrefs⟩
    · exact .inl ⟨hok, hrefu, hmap, by rw [hrefs, hst]; omega⟩
    · exact .inr ⟨hno, hrefu, by rw [hrefs]; exact hcs⟩
  · rw [hpars] at hcs hleft
    refine .inr ⟨fun hacc => ?_, by simp, hcs⟩
    have hnone := hleft.mpr ⟨hacc.wellFormed, .inr hacc.loads_of_misses⟩
    simp at hnone

/-! ### Options that are refused -/

/-- The volumes that a mount and any remounts can leave. The mount reads the version of the volume,
and may turn sparse files off. Every call of `parse_options` finds its own kernel: a table that was
not there can have been loaded since. -/
inductive Reachable : Volume Table → Prop
  | new : Reachable .new
  | version {volume : Volume Table} (majorVer : ℕ) (sparseEnabled : Bool)
      (hreachable : Reachable volume) :
      Reachable { volume with majorVer := majorVer, sparseEnabled := sparseEnabled }
  | parsed {volume : Volume Table} (kernel : Kernel Table) (references : ℤ) (opt : Option String)
      (hreachable : Reachable volume) :
      Reachable (parseOptions kernel volume references opt).volume

/-- The volume is as it was, or it has a table now and nothing was refused. -/
def Inert (volume : Volume Table) (out : Parsed Table) : Prop :=
  out.volume = volume ∨ out.volume.nlsMap ≠ none ∧ out.refusal = none

variable {volume : Volume Table}

omit [DecidableEq Table] in
theorem inert_apply (settings : Settings Table) (references : ℤ) {table : Table}
    (hlink : volume.nlsMap = none → volume.mftZoneMultiplier = 0)
    (htable : volume.nlsMap = none ∨ volume.nlsMap = some table) :
    Inert volume (settings.apply { volume with nlsMap := some table } references) := by
  unfold Settings.apply
  split_ifs with hset hchg
  · rcases htable with hnone | hsome
    · exact absurd (hlink hnone) hchg.1
    · exact .inl (by rw [← hsome])
  all_goals exact .inr ⟨by simp [Settings.applyRest], rfl⟩

theorem inert_parseOptions (hlink : volume.nlsMap = none → volume.mftZoneMultiplier = 0)
    (references : ℤ) (opt : Option String) :
    Inert volume (parseOptions kernel volume references opt) := by
  unfold parseOptions
  split
  · exact .inl rfl
  next settings _ =>
    unfold Settings.finish
    split_ifs with herro honErrors hnone
    · exact .inl rfl
    · exact .inl rfl
    · split
      · rw [if_neg fun hoth => hoth.1 hnone]
        exact inert_apply _ _ hlink (.inl hnone)
      · split
        · exact inert_apply _ _ hlink (.inl hnone)
        · exact .inl rfl
    · obtain ⟨table, hsome⟩ := Option.ne_none_iff_exists'.mp hnone
      split
      · split_ifs with hoth
        · exact .inl rfl
        · exact inert_apply _ _ hlink (by tauto)
      · have hinert := inert_apply settings settings.references hlink (.inr hsome)
        rwa [← hsome] at hinert

theorem Reachable.linked (hrch : Reachable volume) :
    volume.nlsMap = none → volume.mftZoneMultiplier = 0 := by
  induction hrch with
  | new => exact fun _ => rfl
  | version _ _ _ ih => exact ih
  | parsed kernel references opt _ ih =>
    rcases inert_parseOptions ih references opt with hsame | ⟨hsome, -⟩
    · rwa [hsame]
    · exact fun hnone => absurd hnone hsome

/-- Assumes: a volume that a mount and remounts can leave, and options that are refused. Nothing of
the volume is changed. -/
theorem volume_of_refused (hreachable : Reachable volume) {references : ℤ} {opt : Option String}
    (hrefused : (parseOptions kernel volume references opt).refusal ≠ none) :
    (parseOptions kernel volume references opt).volume = volume :=
  (inert_parseOptions hreachable.linked references opt).resolve_right fun hdone => hrefused hdone.2

/-- A kernel with the default table only, whose numbers have one digit. -/
def plainKernel : Kernel Unit where
  loadNls _ := none
  loadNlsDefault := some ()
  simpleStrtoul text _ := ((text.toList.headD '0').toNat - 48, "")
  makeKuid := some
  makeKgid := some

/-- A volume after a mount that set the zone multiplier and a remount that set the user. -/
def remounted : Volume Unit :=
  (parseOptions plainKernel
    (parseOptions plainKernel .new 0 (some "mft_zone_multiplier=2")).volume 1 (some "uid=7")).volume

theorem reachable_remounted : Reachable remounted := .parsed _ _ _ (.parsed _ _ _ .new)

/-- The options have been set, and the next remount is refused by the last check, after all of its
options have been read. -/
theorem volume_of_refused_remounted :
    remounted.mftZoneMultiplier = 2 ∧ remounted.uid = 7 ∧
      (parseOptions plainKernel remounted 1 (some "uid=8,mft_zone_multiplier=3")).refusal =
        some .changesMftZoneMultiplier ∧
      (parseOptions plainKernel remounted 1 (some "uid=8,mft_zone_multiplier=3")).volume =
      remounted := by
  have hrefused : (parseOptions plainKernel remounted 1
      (some "uid=8,mft_zone_multiplier=3")).refusal = some .changesMftZoneMultiplier := by
    decide +kernel
  refine ⟨by decide +kernel, by decide +kernel, hrefused, ?_⟩
  exact volume_of_refused reachable_remounted (by rw [hrefused]; exact nofun)

end

end AdvancedOs.Ntfs.MountOptions
