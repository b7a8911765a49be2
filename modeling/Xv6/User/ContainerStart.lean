import Mathlib.Algebra.Group.Int.Defs
import Mathlib.Data.List.Basic
import Mathlib.Data.List.TakeWhile
import Xv6.CString

/-! # The container specification: `cm.h`

`parse_specs` reads a JSON object and `containerstart` starts a container from what it returns. The
tokens are what the vendored tokenizer returns for the text, and the addresses are what `malloc`
returns, call by call. `parse_specs` stores the values in the order in which they stand in the text,
and `containerstart` passes the address of the third one to `cm_maxproc`.
-/

namespace Xv6.User

variable {i : Nat}

/-! ## `parse_specs` -/

inductive TokenType
  | undefined | object | array | string | primitive
  deriving DecidableEq

structure Token where
  type : TokenType
  start : Nat
  stop : Nat

/-- What `jsmn_parse` returns, and the array it fills. -/
structure Parsed where
  count : Int
  tokens : Nat → Token

def Token.text (json : List UInt8) (t : Token) : List UInt8 :=
  (json.drop t.start).take (t.stop - t.start)

def jsoneq (json : List UInt8) (tok : Token) (s : CString) : Bool :=
  tok.type == .string && s.length == tok.stop - tok.start &&
    strncmp (json.drop tok.start) s (tok.stop - tok.start) == 0

abbrev initKey : CString := [105, 110, 105, 116]
abbrev fsKey : CString := [102, 115]
abbrev nprocKey : CString := [110, 112, 114, 111, 99]

def isKey (json : List UInt8) (tok : Token) : Bool :=
  jsoneq json tok initKey || jsoneq json tok fsKey || jsoneq json tok nprocKey

/-- The string that `safe_strcpy(dest, src, n)` and the `NUL` after it leave. -/
def safeStrcpy (src : List UInt8) (n : Nat) : CString := (src.take n).takeWhile (· ≠ 0)

/-- An entry of `specs`: where it is, and the string there. -/
abbrev Entry := Nat × CString

/-- The loop of `parse_specs` from token `i` on, for at most the given number of rounds; `none` for
`return NULL`. The first call of `malloc` is for `specs`, the next are for its entries. -/
def parseLoop (json : List UInt8) (t : Nat → Token) (count : Int) (malloc : Nat → Option Nat) :
    Nat → Nat → List Entry → Option (List Entry)
  | 0, _, specs => some specs
  | n + 1, i, specs =>
    if (i : Int) < count ∧ specs.length < 3 then
      if isKey json (t i) then
        match malloc (specs.length + 1) with
        | none => none
        | some p =>
          let length := (t (i + 1)).stop - (t (i + 1)).start
          parseLoop json t count malloc n (i + 2)
            (specs ++ [(p, safeStrcpy (json.drop (t (i + 1)).start) length)])
      else parseLoop json t count malloc n (i + 1) specs
    else some specs

/-- `parse_specs(path)`, for the bytes of the file or `none` if it cannot be opened. -/
def parseSpecs (jsmn : List UInt8 → Parsed) (malloc : Nat → Option Nat) :
    Option (List UInt8) → Option (List Entry)
  | none => none
  | some file =>
    let buffer := (file.take 99).takeWhile (· ≠ 0)
    let parsed := jsmn buffer
    if parsed.count < 1 ∨ (parsed.tokens 0).type ≠ .object then none
    else
      match malloc 0 with
      | none => none
      | some _ => parseLoop buffer parsed.tokens parsed.count malloc parsed.count.toNat 1 []

/-! ## `containerstart` -/

inductive Syscall
  | cmSetroot (path : CString) (length : Nat)
  | chdir (path : CString)
  | cmMaxproc (n : Int)
  | cmCreateAndEnter
  | exec (path : CString) (argv : List CString)
  | exit
  deriving DecidableEq

/-- Which of the calls that `containerstart` checks succeed. -/
structure Outcome where
  chdir : Bool
  enter : Bool
  exec : Bool

def toInt (p : Nat) : Int := if p < 2 ^ 31 then p else p - 2 ^ 32

/-- The system calls of the child in `containerstart`; there are none to tell if an entry of `specs`
was not set. -/
def containerstart (jsmn : List UInt8 → Parsed) (malloc : Nat → Option Nat) (file : Option (List UInt8))
    (r : Outcome) : Option (List Syscall) :=
  match parseSpecs jsmn malloc file with
  | none => some [.exit]
  | some [init, fs, nproc] =>
    some (.cmSetroot fs.2 fs.2.length :: .chdir fs.2 ::
      if r.chdir then
        .cmMaxproc (toInt nproc.1) :: .cmCreateAndEnter ::
          if r.enter then
            .exec init.2 [init.2] :: if r.exec then [] else [.exit]
          else [.exit]
      else [.exit])
  | some _ => none

/-! ## What the specification says -/

inductive Key
  | init | fs | nproc
  deriving DecidableEq

def Key.name : Key → CString
  | .init => initKey
  | .fs => fsKey
  | .nproc => nprocKey

/-- A member of the object: its key, and the tokens of its name and of its value. -/
structure Member where
  key : Key
  name : Token
  value : Token

def isDigit (b : UInt8) : Prop := 48 ≤ b ∧ b ≤ 57

instance (b : UInt8) : Decidable (isDigit b) := inferInstanceAs (Decidable (_ ∧ _))

/-- The text is an object of at most 99 bytes with the three keys, each once, and the tokens are
those of its members in the order of the text. -/
structure Describes (json : List UInt8) (members : List Member) (parsed : Parsed) : Prop where
  length : json.length ≤ 99
  noNul : 0 ∉ json
  keys : (members.map Member.key).Perm [.init, .fs, .nproc]
  count : parsed.count = 2 * members.length + 1
  object : (parsed.tokens 0).type = .object
  tokens : ∀ i m, members[i]? = some m →
    parsed.tokens (2 * i + 1) = m.name ∧ parsed.tokens (2 * i + 2) = m.value
  name : ∀ m ∈ members, m.name.type = .string ∧ m.name.text json = m.key.name ∧
    m.name.start ≤ m.name.stop ∧ m.name.stop ≤ json.length
  value : ∀ m ∈ members, m.value.start ≤ m.value.stop ∧ m.value.stop ≤ json.length ∧
    m.value.type = if m.key = .nproc then .primitive else .string
  decimal : ∀ m ∈ members, m.key = .nproc → m.value.text json ≠ [] ∧ ∀ b ∈ m.value.text json, isDigit b

def textOf (json : List UInt8) (members : List Member) (k : Key) : List UInt8 :=
  match members.find? fun m => m.key = k with
  | some m => m.value.text json
  | none => []

/-! ### String literals -/

/-- A byte of a string literal, or the code unit of a `\u` escape. -/
inductive Piece
  | byte (b : UInt8)
  | unit (u : Nat)

def hexDigit (b : UInt8) : Nat :=
  if b < 65 then b.toNat - 48 else if b < 97 then b.toNat - 55 else b.toNat - 87

/-- What stands behind a backslash, other than `u`. -/
def escaped : UInt8 → UInt8
  | 98 => 8
  | 102 => 12
  | 110 => 10
  | 114 => 13
  | 116 => 9
  | b => b

def pieces : List UInt8 → List Piece
  | 92 :: 117 :: a :: b :: c :: d :: rest =>
    .unit (((hexDigit a * 16 + hexDigit b) * 16 + hexDigit c) * 16 + hexDigit d) :: pieces rest
  | 92 :: b :: rest => .byte (escaped b) :: pieces rest
  | b :: rest => .byte b :: pieces rest
  | [] => []

def utf8 (c : Nat) : List UInt8 :=
  if c < 0x80 then [UInt8.ofNat c]
  else if c < 0x800 then [UInt8.ofNat (0xc0 + c / 64), UInt8.ofNat (0x80 + c % 64)]
  else if c < 0x10000 then
    [UInt8.ofNat (0xe0 + c / 4096), UInt8.ofNat (0x80 + c / 64 % 64), UInt8.ofNat (0x80 + c % 64)]
  else
    [UInt8.ofNat (0xf0 + c / 262144), UInt8.ofNat (0x80 + c / 4096 % 64),
      UInt8.ofNat (0x80 + c / 64 % 64), UInt8.ofNat (0x80 + c % 64)]

/-- Two code units that are a surrogate pair make one character. -/
def encode : List Piece → List UInt8
  | .unit u :: .unit v :: rest =>
    if 0xd800 ≤ u ∧ u < 0xdc00 ∧ 0xdc00 ≤ v ∧ v < 0xe000 then
      utf8 (0x10000 + (u - 0xd800) * 1024 + (v - 0xdc00)) ++ encode rest
    else utf8 u ++ encode (.unit v :: rest)
  | .unit u :: rest => utf8 u ++ encode rest
  | .byte b :: rest => b :: encode rest
  | [] => []

def unescape (text : List UInt8) : List UInt8 := encode (pieces text)

/-- The number that a decimal numeral stands for. -/
def decimal (text : List UInt8) : Int := text.foldl (fun n b => 10 * n + (b.toNat - 48 : Nat)) 0

/-- The calls that start the container as specified. -/
def honoured (init fs : CString) (n : Int) (r : Outcome) : List Syscall :=
  .cmSetroot fs fs.length :: .chdir fs ::
    if r.chdir then
      .cmMaxproc n :: .cmCreateAndEnter ::
        if r.enter then .exec init [init] :: if r.exec then [] else [.exit] else [.exit]
    else [.exit]

/-! ## The loop -/

section Loop

variable {json : List UInt8} {t : Nat → Token} {count : Int} {malloc : Nat → Option Nat}
  {members : List Member} {parsed : Parsed}

theorem Token.text_length {tok : Token} (h : tok.stop ≤ json.length) :
    (tok.text json).length = tok.stop - tok.start := by
  unfold Token.text
  rw [List.length_take, List.length_drop]
  omega

theorem jsoneq_text {tok : Token} (htype : tok.type = .string) (hstop : tok.stop ≤ json.length) :
    jsoneq json tok (tok.text json) = true := by
  unfold jsoneq
  rw [htype, Token.text_length hstop, Bool.and_eq_true, Bool.and_eq_true, beq_iff_eq, beq_iff_eq,
    beq_iff_eq, strncmp_eq_zero_iff]
  exact ⟨⟨rfl, rfl⟩, (chars_take _ _).symm⟩

theorem Describes.isKey (h : Describes json members parsed) {m : Member} (hm : m ∈ members) :
    isKey json m.name = true := by
  obtain ⟨htype, htext, -, hstop⟩ := h.name m hm
  have heq := jsoneq_text htype hstop
  rw [htext] at heq
  unfold User.isKey
  cases hkey : m.key with
  | init =>
    rw [hkey] at heq
    rw [show jsoneq json m.name initKey = true from heq]
    rfl
  | fs =>
    rw [hkey] at heq
    rw [show jsoneq json m.name fsKey = true from heq, Bool.or_true]
    rfl
  | nproc =>
    rw [hkey] at heq
    rw [show jsoneq json m.name nprocKey = true from heq, Bool.or_true]

theorem safeStrcpy_text (hnul : 0 ∉ json) (tok : Token) :
    safeStrcpy (json.drop tok.start) (tok.stop - tok.start) = tok.text json := by
  unfold safeStrcpy Token.text
  rw [List.takeWhile_eq_self_iff]
  intro b hb
  refine decide_eq_true fun hzero => hnul ?_
  rw [← hzero]
  exact List.mem_of_mem_drop (List.mem_of_mem_take hb)

theorem parseLoop_member {n : Nat} {specs : List Entry} {value : Token} (hnul : 0 ∉ json)
    (hcount : (i : Int) < count) (hspecs : specs.length < 3) (hkey : isKey json (t i) = true)
    (hvalue : t (i + 1) = value) : parseLoop json t count malloc (n + 1) i specs =
      (malloc (specs.length + 1)).bind fun p =>
        parseLoop json t count malloc n (i + 2) (specs ++ [(p, value.text json)]) := by
  rw [parseLoop, if_pos ⟨hcount, hspecs⟩, if_pos hkey, hvalue]
  dsimp only
  rw [safeStrcpy_text hnul]
  cases malloc (specs.length + 1) with
  | none => rfl
  | some p => rfl

theorem parseLoop_full {n : Nat} {specs : List Entry} (h : 3 ≤ specs.length) :
    parseLoop json t count malloc n i specs = some specs := by
  cases n with
  | zero => rfl
  | succ n => rw [parseLoop, if_neg fun hc => absurd hc.2 (Nat.not_lt.mpr h)]

/-- `parse_specs` stores the values in the order of the text. -/
theorem parseSpecs_eq {jsmn : List UInt8 → Parsed} {a b c : Member}
    (h : Describes json [a, b, c] (jsmn json)) :
    parseSpecs jsmn malloc (some json) =
      (malloc 0).bind fun _ => (malloc 1).bind fun p => (malloc 2).bind fun q => (malloc 3).map fun r =>
        [(p, a.value.text json), (q, b.value.text json), (r, c.value.text json)] := by
  have hbuffer : (json.take 99).takeWhile (· ≠ 0) = json := by
    rw [List.take_of_length_le h.length, List.takeWhile_eq_self_iff]
    intro x hx
    refine decide_eq_true fun hzero => h.noNul ?_
    rw [← hzero]
    exact hx
  have hcount : (jsmn json).count = 7 := h.count
  obtain ⟨ha, ha'⟩ := h.tokens 0 a rfl
  obtain ⟨hb, hb'⟩ := h.tokens 1 b rfl
  obtain ⟨hc, hc'⟩ := h.tokens 2 c rfl
  have hka := h.isKey (m := a) (by simp)
  have hkb := h.isKey (m := b) (by simp)
  have hkc := h.isKey (m := c) (by simp)
  rw [← ha] at hka
  rw [← hb] at hkb
  rw [← hc] at hkc
  simp only [parseSpecs]
  rw [hbuffer, hcount, if_neg (by rw [h.object]; decide)]
  cases malloc 0 with
  | none => rfl
  | some p0 =>
    dsimp only [Option.bind_some]
    rw [show Int.toNat 7 = 6 + 1 from rfl,
      parseLoop_member h.noNul (by decide) (by decide) hka ha']
    refine congrArg _ (funext fun p => ?_)
    rw [parseLoop_member h.noNul (by decide) (by simp) hkb hb']
    refine congrArg _ (funext fun q => ?_)
    rw [parseLoop_member h.noNul (by decide) (by simp) hkc hc']
    rw [Option.map_eq_bind]
    refine congrArg _ (funext fun r => ?_)
    rw [parseLoop_full (by simp)]
    rfl

end Loop

theorem Describes.three {json : List UInt8} {members : List Member} {parsed : Parsed}
    (h : Describes json members parsed) : ∃ a b c, members = [a, b, c] := by
  have hlength := h.keys.length_eq
  rw [List.length_map] at hlength
  exact List.length_eq_three.mp hlength

/-- For every specification: `parse_specs` returns the values of `init`, `fs` and `nproc` in this
order and `containerstart` makes the calls they ask for exactly if there is memory for them, they
stand in the text in this order, as they are without escapes, and `malloc` has put the third one at
the address that is the number. -/
theorem containerstart_honours_iff {jsmn : List UInt8 → Parsed} {malloc : Nat → Option Nat}
    {json : List UInt8} {members : List Member} (h : Describes json members (jsmn json)) (r : Outcome) :
    ((∃ specs, parseSpecs jsmn malloc (some json) = some specs ∧ specs.map Prod.snd =
          [unescape (textOf json members .init), unescape (textOf json members .fs),
            textOf json members .nproc]) ∧
        containerstart jsmn malloc (some json) r =
          some (honoured (unescape (textOf json members .init)) (unescape (textOf json members .fs))
            (decimal (textOf json members .nproc)) r)) ↔
      (∀ i, i < 4 → malloc i ≠ none) ∧
        members.map (fun m => m.value.text json) =
          [unescape (textOf json members .init), unescape (textOf json members .fs),
            textOf json members .nproc] ∧
        (r.chdir = true → (malloc 3).map toInt = some (decimal (textOf json members .nproc))) := by
  obtain ⟨a, b, c, rfl⟩ := h.three
  have hparse : parseSpecs jsmn malloc (some json) = _ := parseSpecs_eq h
  generalize unescape (textOf json [a, b, c] .init) = init
  generalize unescape (textOf json [a, b, c] .fs) = fs
  generalize textOf json [a, b, c] .nproc = nproc
  unfold containerstart
  rw [hparse]
  constructor
  · rintro ⟨⟨specs, hspecs, hvalues⟩, hcalls⟩
    obtain ⟨p0, hp0, hspecs⟩ := Option.bind_eq_some_iff.mp hspecs
    obtain ⟨p, hp, hspecs⟩ := Option.bind_eq_some_iff.mp hspecs
    obtain ⟨q, hq, hspecs⟩ := Option.bind_eq_some_iff.mp hspecs
    obtain ⟨x, hx, rfl⟩ := Option.map_eq_some_iff.mp hspecs
    refine ⟨fun i hi => ?_, hvalues, fun hchdir => ?_⟩
    · have hcases : i = 0 ∨ i = 1 ∨ i = 2 ∨ i = 3 := by omega
      rcases hcases with rfl | rfl | rfl | rfl
      · rw [hp0]
        exact Option.some_ne_none _
      · rw [hp]
        exact Option.some_ne_none _
      · rw [hq]
        exact Option.some_ne_none _
      · rw [hx]
        exact Option.some_ne_none _
    · rw [hp0, hp, hq, hx] at hcalls
      unfold honoured at hcalls
      rw [hchdir] at hcalls
      simp only [Option.bind_some, Option.map_some, if_true, Option.some.injEq, List.cons.injEq] at hcalls
      rw [hx, Option.map_some]
      exact congrArg some (Syscall.cmMaxproc.inj hcalls.2.2.1)
  · rintro ⟨hmemory, hvalues, hnumber⟩
    obtain ⟨p0, hp0⟩ := Option.ne_none_iff_exists'.mp (hmemory 0 (by decide))
    obtain ⟨p, hp⟩ := Option.ne_none_iff_exists'.mp (hmemory 1 (by decide))
    obtain ⟨q, hq⟩ := Option.ne_none_iff_exists'.mp (hmemory 2 (by decide))
    obtain ⟨x, hx⟩ := Option.ne_none_iff_exists'.mp (hmemory 3 (by decide))
    rw [hp0, hp, hq, hx]
    rw [hx, Option.map_some] at hnumber
    refine ⟨⟨_, rfl, hvalues⟩, ?_⟩
    simp only [List.map_cons, List.map_nil, List.cons.injEq, and_true] at hvalues
    obtain ⟨rfl, rfl, rfl⟩ := hvalues
    unfold honoured
    dsimp only [Option.bind_some, Option.map_some]
    cases hchdir : r.chdir with
    | false => rfl
    | true => rw [Option.some.inj (hnumber hchdir)]

/-! ## Two specifications -/

/-- `{"init": "/sh", "fs": "/test", "nproc": 4}`. -/
def shipped : List UInt8 :=
  [123, 34, 105, 110, 105, 116, 34, 58, 32, 34, 47, 115, 104, 34, 44, 32, 34, 102, 115, 34, 58,
    32, 34, 47, 116, 101, 115, 116, 34, 44, 32, 34, 110, 112, 114, 111, 99, 34, 58, 32, 52, 125]

def shippedMembers : List Member :=
  [⟨.init, ⟨.string, 2, 6⟩, ⟨.string, 10, 13⟩⟩, ⟨.fs, ⟨.string, 17, 19⟩, ⟨.string, 23, 28⟩⟩,
    ⟨.nproc, ⟨.string, 32, 37⟩, ⟨.primitive, 40, 41⟩⟩]

/-- `{"fs": "/test", "init": "/sh", "nproc": 4}`. -/
def reordered : List UInt8 :=
  [123, 34, 102, 115, 34, 58, 32, 34, 47, 116, 101, 115, 116, 34, 44, 32, 34, 105, 110, 105, 116,
    34, 58, 32, 34, 47, 115, 104, 34, 44, 32, 34, 110, 112, 114, 111, 99, 34, 58, 32, 52, 125]

def reorderedMembers : List Member :=
  [⟨.fs, ⟨.string, 2, 4⟩, ⟨.string, 8, 13⟩⟩, ⟨.init, ⟨.string, 17, 21⟩, ⟨.string, 25, 28⟩⟩,
    ⟨.nproc, ⟨.string, 32, 37⟩, ⟨.primitive, 40, 41⟩⟩]

/-- The tokens of an object with the given members. -/
def tokensOf (length : Nat) (members : List Member) : Parsed where
  count := 2 * members.length + 1
  tokens := fun i =>
    if i = 0 then ⟨.object, 0, length⟩
    else
      match members[(i - 1) / 2]? with
      | some m => if i % 2 = 1 then m.name else m.value
      | none => ⟨.undefined, 0, 0⟩

theorem tokensOf_member (length : Nat) {members : List Member} {m : Member} (h : members[i]? = some m) :
    (tokensOf length members).tokens (2 * i + 1) = m.name ∧
      (tokensOf length members).tokens (2 * i + 2) = m.value := by
  have hodd : (2 * i + 1 - 1) / 2 = i := by omega
  have heven : (2 * i + 2 - 1) / 2 = i := by omega
  unfold tokensOf
  dsimp only
  rw [if_neg (by omega), if_neg (by omega), hodd, heven, h]
  dsimp only
  rw [if_pos (by omega), if_neg (by omega)]
  exact ⟨rfl, rfl⟩

theorem shipped_describes : Describes shipped shippedMembers (tokensOf 42 shippedMembers) :=
  ⟨by decide, by decide, by decide, rfl, rfl, fun _ _ => tokensOf_member 42, by decide, by decide,
    by decide +kernel⟩

theorem reordered_describes : Describes reordered reorderedMembers (tokensOf 42 reorderedMembers) :=
  ⟨by decide, by decide, by decide, rfl, rfl, fun _ _ => tokensOf_member 42, by decide, by decide,
    by decide +kernel⟩

def heap (i : Nat) : Option Nat := some (0x4000 + 16 * i)

def lowHeap (i : Nat) : Option Nat := some (52 - 16 * i)

/-- The values of the shipped specification are in the order of `specs`; it is followed to the end when the
memory for the value of `nproc` lies at address `4`. -/
theorem containerstart_honours_shipped :
    (∃ specs, parseSpecs (fun _ => tokensOf 42 shippedMembers) lowHeap (some shipped) = some specs ∧
      specs.map Prod.snd = [[47, 115, 104], [47, 116, 101, 115, 116], [52]]) ∧
    containerstart (fun _ => tokensOf 42 shippedMembers) lowHeap (some shipped) ⟨true, true, true⟩ =
      some [.cmSetroot [47, 116, 101, 115, 116] 5, .chdir [47, 116, 101, 115, 116],
        .cmMaxproc 4, .cmCreateAndEnter, .exec [47, 115, 104] [[47, 115, 104]]] := by
  have hinit : unescape (textOf shipped shippedMembers .init) = [47, 115, 104] := by decide
  have hfs : unescape (textOf shipped shippedMembers .fs) = [47, 116, 101, 115, 116] := by decide
  have hnproc : textOf shipped shippedMembers .nproc = [52] := by decide
  have hnumber : decimal [52] = 4 := by decide
  have hiff := @containerstart_honours_iff (fun _ => tokensOf 42 shippedMembers) lowHeap shipped
    shippedMembers shipped_describes ⟨true, true, true⟩
  rw [hinit, hfs, hnproc, hnumber] at hiff
  exact hiff.mpr ⟨fun _ _ => Option.some_ne_none _, by decide, fun _ => by decide⟩

/-- The shipped specification asks for four processes and `cm_maxproc` gets an address. With the
first two members exchanged, `parse_specs` returns the root directory as the program and the program
as the root directory. -/
theorem containerstart_misreads : Describes shipped shippedMembers (tokensOf 42 shippedMembers) ∧
    containerstart (fun _ => tokensOf 42 shippedMembers) heap (some shipped) ⟨true, true, true⟩ =
      some [.cmSetroot [47, 116, 101, 115, 116] 5, .chdir [47, 116, 101, 115, 116],
        .cmMaxproc 0x4030, .cmCreateAndEnter, .exec [47, 115, 104] [[47, 115, 104]]] ∧
    Describes reordered reorderedMembers (tokensOf 42 reorderedMembers) ∧
    parseSpecs (fun _ => tokensOf 42 reorderedMembers) heap (some reordered) =
      some [(0x4010, [47, 116, 101, 115, 116]), (0x4020, [47, 115, 104]), (0x4030, [52])] ∧
    containerstart (fun _ => tokensOf 42 reorderedMembers) heap (some reordered) ⟨true, true, true⟩ =
      some [.cmSetroot [47, 115, 104] 3, .chdir [47, 115, 104], .cmMaxproc 0x4030,
        .cmCreateAndEnter, .exec [47, 116, 101, 115, 116] [[47, 116, 101, 115, 116]]] :=
  ⟨shipped_describes, by decide +kernel, reordered_describes, by decide +kernel, by decide +kernel⟩

end Xv6.User
