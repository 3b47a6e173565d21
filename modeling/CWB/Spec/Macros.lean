import CWB.Library.Decimal
import CWB.Library.HashTables
import CWB.Spec.MakeSet

/-! Macros, `cqp/macro.c`: the table of definitions, the expansion of a call and the input buffers from which the lexer
reads. A result is `none` where memory is left, a null pointer or freed memory is used, or the program stops for lack of
memory. -/

namespace CWB.Macros

open List FeatureSets

/-- Literal text, an argument, or the pseudo argument if it is neither. -/
structure MacroSegment where
  string : Option CString
  arg : ℤ
deriving DecidableEq

/-- An entry of the table; `id` is where it is stored. -/
structure MacroEntry where
  id : ℕ
  name : CString
  args : ℕ
  argnames : List (Option CString)
  replacement : List MacroSegment
  active : Bool
deriving DecidableEq

/-- `hash_macro` -/
def hashMacro (name : CString) (args : ℕ) : UInt32 :=
  name.bytes.foldl (fun (result : UInt32) c => (result * (33 : UInt32)) ^^^ (result >>> (27 : UInt32)) ^^^ UInt32.ofNat c.toNat)
    (UInt32.ofNat args)

/-- The hash key allows overloading. -/
abbrev MacroKey := CString × ℕ

def MacroEntry.key (p : MacroEntry) : MacroKey := (p.name, p.args)

def hashKey (k : MacroKey) : ℕ := (hashMacro k.1 k.2).toNat

structure MacroHashTable where
  hash : List (List MacroEntry)
  size_pos : 0 < hash.length

namespace MacroHashTable

variable (t : MacroHashTable)

def entries : List MacroEntry := t.hash.flatten

/-- A change to the bucket for a key. -/
def modify (k : MacroKey) (f : List MacroEntry → List MacroEntry) : MacroHashTable where
  hash := t.hash.modify (ChainedTable.slot hashKey t.hash k) f
  size_pos := by rw [length_modify]; exact t.size_pos

/-- A change to the entry that is stored there. -/
def update (id : ℕ) (f : MacroEntry → MacroEntry) : MacroHashTable where
  hash := t.hash.map fun b => b.map fun p => if p.id = id then f p else p
  size_pos := by rw [length_map]; exact t.size_pos

/-- `MacroHashLookup` -/
def macroHashLookup (str : CString) (args : ℕ) : Option MacroEntry :=
  ChainedTable.lookup MacroEntry.key hashKey t.hash (str, args)

/-- `MacroHashAdd`, for an entry that has been set up. -/
def macroHashAdd (new : MacroEntry) : MacroHashTable := t.modify new.key (new :: ·)

/-- `MacroHashDelete`, none if the entry is not in its bucket. -/
def macroHashDelete (macroEntry : MacroEntry) : Option MacroHashTable :=
  if ((t.hash[ChainedTable.slot hashKey t.hash macroEntry.key]?).getD []).any (·.id = macroEntry.id) then
    some (t.modify macroEntry.key (eraseP (·.id = macroEntry.id)))
  else none

end MacroHashTable

/-- `MakeMacroHash` -/
def makeMacroHash (size : ℕ) (h : 0 < size) : MacroHashTable where
  hash := replicate size []
  size_pos := by rwa [length_replicate]

/-! ## Definitions -/

structure MacroDatabase where
  table : MacroHashTable
  /-- where the next entry is going to be stored -/
  nextId : ℕ

inductive DefinitionError where
  | invalidNumber
  | definedTwice (argument : ℕ)
  | missingEquals
  | invalidArgument (c : CqiByte)
  | syntaxError
  | invalidReference (argument : ℕ)
deriving DecidableEq

def dollar : CqiByte := 36

def isDigit (c : CqiByte) : Bool := 48 ≤ c.toNat && c.toNat ≤ 57

/-- The loop that counts the arguments of a prototype, on the memory from `point` on. A `$` is skipped together with what
follows it, the terminator included. -/
def countArgs : ℕ → List CqiByte → ℕ → Option ℕ
  | 0, _, _ => none
  | _ + 1, [], _ => none
  | rounds + 1, c :: point, args =>
    if c = 0 then some args
    else if c = dollar then
      match point with
      | [] => none
      | d :: point => countArgs rounds point (if isDigit d then max args (d.toNat - 48 + 1) else args)
    else countArgs rounds point args

/-- The number of arguments; `argstr` is given with the memory behind it. -/
def argumentCount (args : ℤ) : Option (CString × List CqiByte) → Option ℤ
  | none => some args
  | some (argstr, behind) =>
    (countArgs (argstr.bytes.length + behind.length + 1) (argstr.bytes ++ 0 :: behind) 0).map Nat.cast

/-- The characters of the name of an argument. -/
def isNameChar (c : CqiByte) : Bool :=
  (65 ≤ c.toNat && c.toNat ≤ 90) || (97 ≤ c.toNat && c.toNat ≤ 122) || isDigit c || c = 95 || c = 45

/-- The loop over a prototype, with the rounds that are left. -/
def parsePrototype : ℕ → List CqiByte → ℕ → List (Option CString) → Option (Except DefinitionError (List (Option CString)))
  | 0, _, _, _ => none
  | _ + 1, [], _, argnames => some (.ok argnames)
  | rounds + 1, c :: point, argument, argnames =>
    if c ≠ dollar then some (.error .syntaxError)
    else match point with
      | [] => some (.error (.invalidArgument 0))
      | d :: point =>
        if d.toInt ≠ 48 + argument then some (.error (.invalidArgument d))
        else if point.head? ≠ some 61 then some (.error .missingEquals)
        else
          let name := point.tail.takeWhile isNameChar
          match argnames[argument]? with
          | none => none
          | some (some _) => some (.error (.definedTwice argument))
          | some none =>
            parsePrototype rounds ((point.tail.dropWhile isNameChar).dropWhile fun c => c = 32 || c = 9) (argument + 1)
              (argnames.set argument (some (CString.ofBuffer (name ++ [0]))))

/-- Does a literal segment end here? -/
def atMark : List CqiByte → Bool
  | c :: d :: _ => c = dollar && (isDigit d || d = dollar)
  | _ => false

/-- The loop that scans a literal segment, with what is left of the definition. -/
def scanString : List CqiByte → List CqiByte × List CqiByte
  | [] => ([], [])
  | c :: point => if atMark (c :: point) then ([], c :: point) else (c :: (scanString point).1, (scanString point).2)

/-- The loop that chunks a definition into segments, with the rounds that are left. -/
def chunkDefinition (args : ℕ) : ℕ → List CqiByte → List MacroSegment → Option (Except DefinitionError (List MacroSegment))
  | 0, _, _ => none
  | rounds + 1, point, replacement =>
    if point = [] then some (.ok replacement)
    else
      let literal := (scanString point).1
      let replacement :=
        if literal ≠ [] then replacement ++ [{ string := some (CString.ofBuffer (literal ++ [0])), arg := -1 }]
        else replacement
      match (scanString point).2 with
      | _ :: d :: point =>
        if d = dollar then chunkDefinition args rounds point (replacement ++ [{ string := none, arg := -1 }])
        else
          let argument := d.toNat - 48
          if argument ≥ args then some (.error (.invalidReference argument))
          else chunkDefinition args rounds point (replacement ++ [{ string := none, arg := argument }])
      | point => chunkDefinition args rounds point replacement

/-- The macro that is redefined is removed. -/
def removeRedefined (table : MacroHashTable) (name : CString) (args : ℕ) : Option MacroHashTable :=
  match table.macroHashLookup name args with
  | some macroEntry => table.macroHashDelete macroEntry
  | none => some table

/-- The names of the arguments of a new macro. -/
def prototypeNames : Option (CString × List CqiByte) → Option (Except DefinitionError (List (Option CString)))
  | none => some (.ok (replicate 10 none))
  | some (argstr, _) => parsePrototype (argstr.bytes.length + 1) argstr.bytes 0 (replicate 10 none)

/-- The argument names and the segments of a new macro. -/
def parseDefinition (args : ℕ) (argstr : Option (CString × List CqiByte)) (definition : CString) :
    Option (Except DefinitionError (List (Option CString) × List MacroSegment)) :=
  (prototypeNames argstr).bind fun names =>
    match names with
    | .error e => some (.error e)
    | .ok argnames =>
      (chunkDefinition args (definition.bytes.length + 1) definition.bytes []).map fun replacement =>
        replacement.map fun replacement => (argnames, replacement)

/-- The entry for a definition, as it is added to the table. -/
def newEntry (db : MacroDatabase) (name : CString) (args : ℕ) : MacroEntry where
  id := db.nextId
  name
  args
  argnames := replicate 10 none
  replacement := []
  active := false

/-- `define_macro`, with the error for which it returns 0. -/
def defineMacro (db : MacroDatabase) (name : CString) (args : ℤ) (argstr : Option (CString × List CqiByte))
    (definition : CString) : Option (MacroDatabase × Option DefinitionError) :=
  (argumentCount args argstr).bind fun args =>
    if args < 0 ∨ args > 10 then some (db, some .invalidNumber)
    else
      (removeRedefined db.table name args.toNat).bind fun table =>
        let new := newEntry db name args.toNat
        let table := table.macroHashAdd new
        (parseDefinition args.toNat argstr definition).bind fun
          | .error e => (table.macroHashDelete new).map fun table => ({ table, nextId := db.nextId + 1 }, some e)
          | .ok (argnames, replacement) =>
            some ({ table := table.update new.id fun p => { p with argnames, replacement }, nextId := db.nextId + 1 }, none)

/-! ## Input buffers -/

structure InputBuffer where
  /-- the size of the block for the data -/
  allocated : ℕ
  data : CString
  position : ℕ
  position_le : position ≤ data.bytes.length
  /-- the entry of the macro that has created the buffer -/
  macroId : ℕ

structure MacroState where
  database : MacroDatabase
  inputBufferList : List InputBuffer
  macroArg : List (Option CString)
  pseudoArgCounter : UInt32
  /-- what is left of `cqp_input_string` or `yyin` -/
  input : List CqiByte

namespace MacroState

variable (st : MacroState)

def lookup (name : CString) (args : ℕ) : Option MacroEntry := st.database.table.macroHashLookup name args

def setActive (id : ℕ) (active : Bool) : MacroState :=
  { st with database := { st.database with table := st.database.table.update id fun p => { p with active } } }

/-- `PopInputBuffer`, none if the macro of the buffer has been deleted. -/
def popInputBuffer : Option MacroState :=
  match st.inputBufferList with
  | [] => some st
  | temp :: rest =>
    if st.database.table.entries.any (·.id = temp.macroId) then
      some { st.setActive temp.macroId false with inputBufferList := rest }
    else none

/-- `yy_input_char`, with the calls of itself that are left; there is no character at the end of the input. -/
def yyInputChar : ℕ → MacroState → Option (Option CqiByte × MacroState)
  | 0, _ => none
  | calls + 1, st =>
    match st.inputBufferList with
    | [] =>
      match st.input with
      | [] => some (none, st)
      | c :: input => some (some c, { st with input })
    | buf :: rest =>
      if h : buf.position < buf.data.bytes.length then
        some (some buf.data.bytes[buf.position],
          { st with inputBufferList := { buf with position := buf.position + 1, position_le := h } :: rest })
      else st.popInputBuffer.bind (yyInputChar calls)

end MacroState

/-! ## Calls -/

inductive Token where
  | integer (yytext : CString)
  | id (strval : CString)
  | string (strval : CString)
  | comma
  /-- `)` or `]` -/
  | close
  | other (token : ℤ)
deriving DecidableEq

/-- The text of a token that can be an argument. -/
def Token.argument : Token → Option CString
  | .integer s | .id s | .string s => some s
  | .comma | .close | .other _ => none

inductive CallError where
  | invalidArgumentType
  | tooManyArguments
  | syntaxError
  | recursion
  | notDefined
deriving DecidableEq

/-- What the loop over the arguments of a call leaves, with the indices of the entries of `macro_arg` that it has written. -/
structure ArgumentRead where
  args : ℕ
  stored : List ℕ
  error : Option CallError
  state : MacroState

/-- The loop over the arguments, with the rounds that are left and the number of the next call of `yylex`: this call
returns `tokens k`, and what it does to the state is `lexed k`, the expansion of calls inside of the argument list
included. What is written behind the table is not part of the state. -/
def readArguments (tokens : ℕ → Token) (lexed : ℕ → MacroState → MacroState) :
    ℕ → ℕ → ℕ → List ℕ → MacroState → Option ArgumentRead
  | 0, _, _, _, _ => none
  | rounds + 1, k, args, stored, st =>
    let st := lexed k st
    if tokens k = .close then some ⟨args, stored, none, st⟩
    else
      match (tokens k).argument with
      | none => some ⟨args, stored, some .invalidArgumentType, st⟩
      | some s =>
        let st := { st with macroArg := st.macroArg.set args (some s) }
        let stored := stored ++ [args]
        if args + 1 > 10 then some ⟨args + 1, stored, some .tooManyArguments, st⟩
        else
          let st := lexed (k + 1) st
          if tokens (k + 1) = .close then some ⟨args + 1, stored, none, st⟩
          else if tokens (k + 1) ≠ .comma then some ⟨args + 1, stored, some .syntaxError, st⟩
          else readArguments tokens lexed rounds (k + 2) (args + 1) stored st

/-- What `sprintf(pseudo_arg, "_pseudo_%u", n)` writes. -/
def pseudoArg (n : UInt32) : CString :=
  CString.ofBuffer (([95, 112, 115, 101, 117, 100, 111, 95] : List CqiByte) ++ (Decimal.text n.toNat).map UInt8.toBitVec ++ [0])

section Substitution

variable (macroArg : List (Option CString)) (pseudo : CString)

/-- The length of the text for a segment, as the first loop computes it; none for a null pointer. -/
def segmentLength (seg : MacroSegment) : Option ℕ :=
  if seg.arg ≥ 0 then (macroArg.getD seg.arg.toNat none).map fun s => s.bytes.length
  else match seg.string with
    | some s => some s.bytes.length
    | none => some pseudo.bytes.length

/-- `part`, in the second loop. -/
def segmentPart (seg : MacroSegment) : Option CString :=
  if seg.arg ≥ 0 then macroArg.getD seg.arg.toNat none
  else match seg.string with
    | some s => some s
    | none => some pseudo

/-- `len`, an `int` -/
def replacementLength (replacement : List MacroSegment) : Option CInt :=
  replacement.foldlM (fun len seg => (segmentLength macroArg pseudo seg).map fun n => len + BitVec.ofNat 32 n) 0

/-- `PushInputBuffer`: the block, in which the first byte is written. -/
def pushInputBuffer (size : CInt) : Option SetBuffer :=
  (clMalloc (size + 1)).bind fun b => if 0 < b.allocated then some b else none

/-- The block for the replacement, filled by the second loop. -/
def fillBuffer (replacement : List MacroSegment) : Option SetBuffer := do
  let len ← replacementLength macroArg pseudo replacement
  let b ← pushInputBuffer len
  let b ← replacement.foldlM (fun b seg => (segmentPart macroArg pseudo seg).bind b.strcpy) b
  b.putChar 0

end Substitution

/-- The second half of `expand_macro`: look-up and substitution. -/
def substituteCall (st : MacroState) (name : CString) (args : ℕ) (pseudo : CString) :
    Option (MacroState × Option CallError) :=
  match st.lookup name args with
  | none => some (st, some .notDefined)
  | some macroEntry =>
    if macroEntry.active then some (st, some .recursion)
    else
      (fillBuffer st.macroArg pseudo macroEntry.replacement).map fun b =>
        ({ st.setActive macroEntry.id true with
            inputBufferList :=
              { allocated := b.allocated, data := CString.ofBuffer b.written, position := 0, position_le := Nat.zero_le _,
                macroId := macroEntry.id } :: st.inputBufferList }, none)

/-- The indices of the entries of `macro_arg` that the substitution looks at. -/
def dereferenced (replacement : List MacroSegment) : List ℕ :=
  (replacement.filter fun seg => seg.arg ≥ 0).map fun seg => seg.arg.toNat

/-- A call with the indices of the entries of `macro_arg` that are written and read. -/
structure ExpandCall where
  args : ℕ
  stored : List ℕ
  dereferenced : List ℕ
  result : Option (MacroState × Option CallError)

/-- A call begins: the arguments of the last one are freed, and the number for the pseudo argument is used up. -/
def MacroState.beginCall (st : MacroState) : MacroState :=
  { st with macroArg := replicate 10 none, pseudoArgCounter := st.pseudoArgCounter + 1 }

/-- `expand_macro`, with the tokens from the lexer. -/
def expandMacro (st : MacroState) (name : CString) (tokens : ℕ → Token) (lexed : ℕ → MacroState → MacroState) :
    Option ExpandCall := do
  let pseudo := pseudoArg st.pseudoArgCounter
  let r ← readArguments tokens lexed 11 0 0 [] st.beginCall
  match r.error with
  | some e => some { args := r.args, stored := r.stored, dereferenced := [], result := some (r.state, some e) }
  | none =>
    some
      { args := r.args
        stored := r.stored
        dereferenced :=
          match r.state.lookup name r.args with
          | some macroEntry => if macroEntry.active then [] else dereferenced macroEntry.replacement
          | none => []
        result := substituteCall r.state name r.args pseudo }

/-! ## Substitution -/

/-- A definition with its arguments and pseudo arguments replaced, from left to right. -/
def substitute (arguments : List CString) (pseudo : CString) : List CqiByte → List CqiByte
  | [] => []
  | [c] => [c]
  | c :: d :: s =>
    if c = dollar ∧ d = dollar then pseudo.bytes ++ substitute arguments pseudo s
    else if c = dollar ∧ isDigit d then
      ((arguments[d.toNat - 48]?).map CString.bytes).getD [] ++ substitute arguments pseudo s
    else c :: substitute arguments pseudo (d :: s)

/-! ## Runs -/

/-- The program before the first definition. -/
def initialState (size : ℕ) (h : 0 < size) (input : List CqiByte) : MacroState where
  database := { table := makeMacroHash size h, nextId := 0 }
  inputBufferList := []
  macroArg := replicate 10 none
  pseudoArgCounter := 0
  input

/-- A character is read from the input buffers or the input. -/
def Reads (st st' : MacroState) : Prop := ∃ c, st.yyInputChar (st.inputBufferList.length + 1) = some (some c, st')

/-- A call is replaced. -/
def Expands (st st' : MacroState) : Prop := ∃ name args pseudo, substituteCall st name args pseudo = some (st', none)

/-- What the lexer does, whatever arguments of calls have been stored before. -/
def LexerStep (st st' : MacroState) : Prop :=
  ∃ macroArg pseudoArgCounter,
    Reads { st with macroArg, pseudoArgCounter } st' ∨ Expands { st with macroArg, pseudoArgCounter } st'

/-- A call of `define_macro`. -/
structure MacroDefinition where
  name : CString
  args : ℤ
  argstr : Option (CString × List CqiByte)
  definition : CString

def MacroDefinition.run (d : MacroDefinition) (db : MacroDatabase) : Option (MacroDatabase × Option DefinitionError) :=
  defineMacro db d.name d.args d.argstr d.definition

/-- The state after a definition, accepted or not. -/
def Defines (d : MacroDefinition) (st st' : MacroState) : Prop :=
  ∃ db e, d.run st.database = some (db, e) ∧ st' = { st with database := db }

/-- A step of the program, with the pseudo arguments of the calls that have begun before it: a definition of the kind that
is allowed, what is read, a call, an argument that is stored, or a replacement. -/
inductive ProgramStep (allowed : MacroDefinition → Prop) : List CString × MacroState → List CString × MacroState → Prop
  | define {d : MacroDefinition} {used : List CString} {st st' : MacroState} (hd : allowed d) (h : Defines d st st') :
      ProgramStep allowed (used, st) (used, st')
  | read {used : List CString} {st st' : MacroState} (h : Reads st st') : ProgramStep allowed (used, st) (used, st')
  | call (used : List CString) (st : MacroState) :
      ProgramStep allowed (used, st) (pseudoArg st.pseudoArgCounter :: used, st.beginCall)
  | store (used : List CString) (st : MacroState) (i : ℕ) (s : CString) :
      ProgramStep allowed (used, st) (used, { st with macroArg := st.macroArg.set i (some s) })
  | expand {used : List CString} {st st' : MacroState} (h : Expands st st') : ProgramStep allowed (used, st) (used, st')

/-- A state of the program. -/
def Reachable (used : List CString) (st : MacroState) : Prop :=
  ∃ size h input, Relation.ReflTransGen (ProgramStep fun _ => True) ([], initialState size h input) (used, st)

/-- A macro is marked if and only if one of the buffers on the list is its expansion, and then only one is. -/
structure ActiveOnStack (st : MacroState) : Prop where
  active : ∀ p ∈ st.database.table.entries, p.active = true ↔ ∃ buf ∈ st.inputBufferList, buf.macroId = p.id
  once : (st.inputBufferList.map InputBuffer.macroId).Nodup

/-- A state before anything has been read: whatever macros have been defined. -/
def OnlyDefined (st : MacroState) : Prop :=
  ∃ size h input, Relation.ReflTransGen (fun st st' => ∃ d, Defines d st st') (initialState size h input) st

/-- The argument names and the replacement of a macro. -/
def definitionOf (db : MacroDatabase) (str : CString) (args : ℕ) : Option (List (Option CString) × List MacroSegment) :=
  (db.table.macroHashLookup str args).map fun p => (p.argnames, p.replacement)

/-! ## Properties of a call -/

/-- The tokens of a list of arguments. -/
structure ArgumentTokens (tokens : ℕ → Token) (arguments : List CString) : Prop where
  argument : ∀ i s, arguments[i]? = some s → (tokens (2 * i)).argument = some s
  comma : ∀ i, i + 1 < arguments.length → tokens (2 * i + 1) = .comma
  close : tokens (2 * arguments.length - 1) = .close

/-- More arguments than there can be. -/
def ElevenArguments (tokens : ℕ → Token) : Prop :=
  (∀ i ≤ 10, ((tokens (2 * i)).argument).isSome = true) ∧ ∀ i < 10, tokens (2 * i + 1) = .comma

/-- A call stays within the table of arguments. -/
def WithinTable (call : ExpandCall) : Prop :=
  (∀ i ∈ call.stored, i < 10) ∧ (10 < call.args → ∃ st, call.result = some (st, some .tooManyArguments)) ∧
    ∀ i ∈ call.dereferenced, i < call.args

/-- A definition that is not of the macro `(name, args)`. -/
def OfAnother (name : CString) (args : ℤ) (d : MacroDefinition) : Prop := ¬(d.name = name ∧ argumentCount d.args d.argstr = some args)

/-- A buffer with the text is pushed, which fills its block. -/
def Pushes (st st' : MacroState) (text : List CqiByte) : Prop :=
  ∃ st₁ buf, Relation.ReflTransGen LexerStep st st₁ ∧ st'.inputBufferList = buf :: st₁.inputBufferList ∧
    buf.data.bytes = text ∧ buf.allocated = text.length + 1 ∧ buf.position = 0

end CWB.Macros
