import FriBound.Proofs.Entries
import FriBound.Proofs.Literals

/-!
# The arguments of the command

Which arguments `custom` takes, and what parameters they become. Each argument has a notation of
its own, said in `Argument.Accepts` without the readers. Six arguments that are all in their
notation are the parameters with the values written (`Spells`); of others the first that is not in
its notation is named.

## Main definitions

* `Argument.Accepts` — the notation of an argument
* `FirstRefused` — the first argument that is not in its notation
* `Spells` — six arguments and the parameters that they describe
* `Describes` — the same for a list of arguments
* `ReadsArguments` — how the reading of arguments ends

## Main results

* `StopsAtFirst.bind` — readers in a row, one argument after the other
* `readsArguments` — how the reading of any arguments ends
-/

namespace FriBound.Command

/-! ### The notation -/

/-- The text is in the notation of the argument: an integer of 32 bits with its sign, a literal, a
number of 64 bits, or a list of such numbers with commas, in which empty pieces do not count and
white space around a number is allowed. -/
def Argument.Accepts : Argument → String → Prop
  | rateBits, s | codewordSizeBits, s | fieldSizeBits, s =>
    ∃ z, SignedNumeral s.toList z ∧ -2 ^ 31 ≤ z ∧ z < 2 ^ 31
  | m, s => Decimal.Literal s.toList
  | numQueries, s => ∃ n, Numeral s.toList n ∧ n < 2 ^ 64
  | arityBits, s => ∀ piece ∈ Text.entries s.toList, ∃ n, Text.Entry piece n ∧ n < 2 ^ 64

/-- The arguments in the order in which they are written. -/
def Argument.all : List Argument :=
  [.rateBits, .codewordSizeBits, .m, .fieldSizeBits, .numQueries, .arityBits]

/-- Of the arguments with their texts, the first text that is not in its notation. -/
inductive FirstRefused : List (Argument × String) → Argument → Prop
  | here {argument : Argument} {text : String} {rest : List (Argument × String)} :
      ¬argument.Accepts text → FirstRefused ((argument, text) :: rest) argument
  | later {argument other : Argument} {text : String} {rest : List (Argument × String)} :
      other.Accepts text → FirstRefused rest argument →
      FirstRefused ((other, text) :: rest) argument

/-- The six texts describe the parameters `p`: every number is the one written, the rounds are those
of the list, and there is a single function. -/
structure Spells (rateBits codewordSizeBits m fieldSizeBits numQueries arityBits : String)
    (p : Params Binary64) : Prop where
  numFunctions : p.numFunctions = 1
  rateBits : SignedNumeral rateBits.toList p.rateBits.toInt
  codewordSizeBits : SignedNumeral codewordSizeBits.toList p.codewordSizeBits.toInt
  m : Decimal.read m = .ok p.m
  fieldSizeBits : SignedNumeral fieldSizeBits.toList p.fieldSizeBits.toInt
  numQueries : Numeral numQueries.toList p.numQueries.toNat
  arityBits : List.Forall₂ (fun piece a => Text.Entry piece a.toNat)
    (Text.entries arityBits.toList) p.arityBits
  numRounds : p.numRounds = p.arityBits.length

/-- The texts are six, and they describe the parameters `p`. -/
def Describes (args : List String) (p : Params Binary64) : Prop :=
  ∃ a b c d e f, args = [a, b, c, d, e, f] ∧ Spells a b c d e f p

/-- The argument that an error is about, if it is about a single one. -/
def UsageError.argument? : UsageError → Option Argument
  | numeral argument _ => some argument
  | literal argument _ => some argument
  | _ => none

theorem UsageError.message_of_argument? {e : UsageError} {a : Argument}
    (h : e.argument? = some a) :
    ∃ why, e.message = "Error: parsing " ++ a.name ++ ": " ++ why ++ "\n" := by
  cases e with
  | unknownOption option => cases h
  | argumentCount count => cases h
  | numeral argument why =>
    cases h
    exact ⟨numeralMessage why, rfl⟩
  | literal argument why =>
    cases h
    exact ⟨literalMessage why, rfl⟩

/-! ### Readers in a row -/

/-- How readers end that go through the arguments in a row: with a value if all are in their
notation, and otherwise with an error about the first that is not. -/
def StopsAtFirst {β : Type} (arguments : List (Argument × String)) (x : Except UsageError β) :
    Prop :=
  ((∀ a ∈ arguments, a.1.Accepts a.2) ∧ ∃ v, x = .ok v) ∨
    ∃ argument e, FirstRefused arguments argument ∧ x = .error e ∧ e.argument? = some argument

namespace StopsAtFirst

variable {β γ : Type} {argument : Argument} {text : String} {rest : List (Argument × String)}

theorem pure (v : β) : StopsAtFirst [] (.ok v) := .inl ⟨by simp, v, rfl⟩

/-- One reader, which either takes the text or complains about it. -/
theorem single {x : Except UsageError β} (hok : (∃ v, x = .ok v) ↔ argument.Accepts text)
    (herror : ∀ e, x = .error e → e.argument? = some argument) :
    StopsAtFirst [(argument, text)] x := by
  cases x with
  | ok v => exact .inl ⟨by simpa using hok.mp ⟨v, rfl⟩, v, rfl⟩
  | error e =>
    have hno : ¬argument.Accepts text := fun h => by
      obtain ⟨v, hv⟩ := hok.mpr h
      cases hv
    exact .inr ⟨argument, e, .here hno, rfl, herror e rfl⟩

/-- The next reader goes on where the one before it has taken its text. -/
theorem bind {x : Except UsageError β} {f : β → Except UsageError γ}
    (hx : StopsAtFirst [(argument, text)] x) (hf : ∀ v, StopsAtFirst rest (f v)) :
    StopsAtFirst ((argument, text) :: rest) (x >>= f) := by
  rcases hx with ⟨hall, v, rfl⟩ | ⟨_, e, hfirst, rfl, he⟩
  · have haccepts : argument.Accepts text := hall _ (List.mem_singleton_self _)
    rcases hf v with ⟨hrest, w, hw⟩ | ⟨other, e, hfirst, hw, he⟩
    · exact .inl ⟨List.forall_mem_cons.mpr ⟨haccepts, hrest⟩, w, hw⟩
    · exact .inr ⟨other, e, .later haccepts hfirst, hw, he⟩
  · cases hfirst with
    | here hno => exact .inr ⟨argument, e, .here hno, rfl, he⟩
    | later _ hnone => nomatch hnone

end StopsAtFirst

/-! ### The first refused argument -/

theorem FirstRefused.unique {arguments : List (Argument × String)} {a b : Argument}
    (ha : FirstRefused arguments a) (hb : FirstRefused arguments b) : a = b := by
  induction ha with
  | here hno =>
    cases hb with
    | here => rfl
    | later haccepts => exact absurd haccepts hno
  | later haccepts _ ih =>
    cases hb with
    | here hno => exact absurd haccepts hno
    | later _ hb => exact ih hb

theorem FirstRefused.not_all {arguments : List (Argument × String)} {a : Argument}
    (h : FirstRefused arguments a) : ¬∀ x ∈ arguments, x.1.Accepts x.2 := by
  induction h with
  | here hno => exact fun hall => hno (hall _ List.mem_cons_self)
  | later _ _ ih => exact fun hall => ih (List.forall_mem_cons.mp hall).2

namespace StopsAtFirst

variable {β : Type} {arguments : List (Argument × String)} {x : Except UsageError β}

theorem exists_ok_iff (h : StopsAtFirst arguments x) :
    (∃ v, x = .ok v) ↔ ∀ a ∈ arguments, a.1.Accepts a.2 := by
  rcases h with ⟨hall, hok⟩ | ⟨argument, e, hfirst, rfl, -⟩
  · exact iff_of_true hok hall
  · exact iff_of_false (by simp) hfirst.not_all

theorem exists_error_iff (h : StopsAtFirst arguments x) {argument : Argument} :
    (∃ e, x = .error e ∧ e.argument? = some argument) ↔ FirstRefused arguments argument := by
  rcases h with ⟨hall, v, rfl⟩ | ⟨other, e, hfirst, rfl, he⟩
  · exact iff_of_false (by simp) fun hfirst => hfirst.not_all hall
  · constructor
    · rintro ⟨_, ⟨⟩, he'⟩
      rw [he] at he'
      cases he'
      exact hfirst
    · intro hfirst'
      exact ⟨e, rfl, hfirst.unique hfirst' ▸ he⟩

theorem argument?_of_error (h : StopsAtFirst arguments x) {e : UsageError} (he : x = .error e) :
    ∃ argument, e.argument? = some argument := by
  rcases h with ⟨-, v, rfl⟩ | ⟨argument, e', -, rfl, he'⟩
  · cases he
  · cases he
    exact ⟨argument, he'⟩

end StopsAtFirst

/-! ### The reader of each argument -/

theorem argument?_of_readNumeral {argument : Argument} {range : WordRange} {cs : List Char}
    {e : UsageError} (h : readNumeral argument range cs = .error e) :
    e.argument? = some argument := by
  obtain ⟨why, -, rfl⟩ := mapError_eq_error_iff.mp h
  rfl

theorem argument?_of_readArities {cs : List Char} {e : UsageError}
    (h : readArities cs = .error e) : e.argument? = some .arityBits := by
  obtain ⟨piece, -, hpiece⟩ := exists_eq_error_of_mapM h
  exact argument?_of_readNumeral (map_eq_error_iff.mp hpiece)

theorem exists_readInt32_iff {argument : Argument} {cs : List Char} :
    (∃ z, readNumeral argument .int32 cs = .ok z) ↔
      ∃ z, SignedNumeral cs z ∧ -2 ^ 31 ≤ z ∧ z < 2 ^ 31 := by
  simp only [readNumeral_eq_ok_iff, WordRange.read_int32_eq_ok_iff]

theorem exists_readUInt64_iff {argument : Argument} {cs : List Char} :
    (∃ z, readNumeral argument .uint64 cs = .ok z) ↔ ∃ n, Numeral cs n ∧ n < 2 ^ 64 := by
  simp only [readNumeral_eq_ok_iff, WordRange.read_uint64_eq_ok_iff]
  constructor
  · rintro ⟨z, n, hn, -, hlt⟩
    exact ⟨n, hn, hlt⟩
  · rintro ⟨n, hn, hlt⟩
    exact ⟨n, n, hn, rfl, hlt⟩

/-- **Six arguments are read in a row.** -/
theorem stopsAtFirst_readParams (rateBits codewordSizeBits m fieldSizeBits numQueries
    arityBits : String) :
    StopsAtFirst (Argument.all.zip [rateBits, codewordSizeBits, m, fieldSizeBits, numQueries,
        arityBits])
      (readParams [rateBits, codewordSizeBits, m, fieldSizeBits, numQueries, arityBits]) := by
  rw [readParams]
  refine .bind (.single exists_readInt32_iff fun e => argument?_of_readNumeral) fun _ => ?_
  refine .bind (.single exists_readInt32_iff fun e => argument?_of_readNumeral) fun _ => ?_
  refine .bind (.single ?_ ?_) fun _ => ?_
  · simp only [mapError_eq_ok_iff]
    exact Decimal.read_isOk_iff
  · intro e he
    obtain ⟨why, -, rfl⟩ := mapError_eq_error_iff.mp he
    rfl
  refine .bind (.single exists_readInt32_iff fun e => argument?_of_readNumeral) fun _ => ?_
  refine .bind (.single exists_readUInt64_iff fun e => argument?_of_readNumeral) fun _ => ?_
  refine .bind (.single exists_readArities_iff fun e => argument?_of_readArities) fun _ => ?_
  exact .pure _

/-! ### The values -/

theorem readParams_of_length_ne {args : List String} (h : args.length ≠ 6) :
    readParams args = .error (.argumentCount args.length) := by
  rw [readParams]
  rintro a b c d e f rfl
  exact h rfl

theorem exists_of_length_eq {args : List String} (h : args.length = 6) :
    ∃ a b c d e f, args = [a, b, c, d, e, f] := by
  rcases args with _ | ⟨a, _ | ⟨b, _ | ⟨c, _ | ⟨d, _ | ⟨e, _ | ⟨f, _ | ⟨g, args⟩⟩⟩⟩⟩⟩⟩
  case cons.cons.cons.cons.cons.cons.nil => exact ⟨a, b, c, d, e, f, rfl⟩
  all_goals simp at h

theorem readParams_six_eq_ok_iff {a b c d e f : String} {p : Params Binary64} :
    readParams [a, b, c, d, e, f] = .ok p ↔ Spells a b c d e f p := by
  simp only [readParams, bind_eq_ok_iff, readNumeral_eq_ok_iff, WordRange.read_int32_eq_ok_iff,
    WordRange.read_uint64_eq_ok_iff, mapError_eq_ok_iff, readArities_eq_ok_iff]
  constructor
  · rintro ⟨r, ⟨hr, hr₁, hr₂⟩, s, ⟨hs, hs₁, hs₂⟩, m, hm, k, ⟨hk, hk₁, hk₂⟩, _, ⟨q, hq, rfl, hlt⟩,
      as, has, h⟩
    cases h
    exact {
      numFunctions := rfl
      rateBits := by rwa [Int32.toInt_ofInt_of_le hr₁ hr₂]
      codewordSizeBits := by rwa [Int32.toInt_ofInt_of_le hs₁ hs₂]
      m := hm
      fieldSizeBits := by rwa [Int32.toInt_ofInt_of_le hk₁ hk₂]
      numQueries := by rwa [Int.toNat_natCast, UInt64.toNat_ofNat_of_lt' hlt]
      arityBits := has
      numRounds := rfl }
  · intro h
    refine ⟨_, ⟨h.rateBits, p.rateBits.le_toInt, p.rateBits.toInt_lt⟩, _,
      ⟨h.codewordSizeBits, p.codewordSizeBits.le_toInt, p.codewordSizeBits.toInt_lt⟩, _, h.m, _,
      ⟨h.fieldSizeBits, p.fieldSizeBits.le_toInt, p.fieldSizeBits.toInt_lt⟩, _,
      ⟨_, h.numQueries, rfl, p.numQueries.toNat_lt⟩, _, h.arityBits, ?_⟩
    simp only [Int32.ofInt_toInt, Int.toNat_natCast, UInt64.ofNat_toNat, ← h.numFunctions,
      ← h.numRounds]
    rfl

theorem readParams_eq_ok_iff {args : List String} {p : Params Binary64} :
    readParams args = .ok p ↔ Describes args p := by
  by_cases h : args.length = 6
  · obtain ⟨a, b, c, d, e, f, rfl⟩ := exists_of_length_eq h
    rw [readParams_six_eq_ok_iff]
    constructor
    · exact fun hp => ⟨a, b, c, d, e, f, rfl, hp⟩
    · rintro ⟨_, _, _, _, _, _, ⟨⟩, hp⟩
      exact hp
  · rw [readParams_of_length_ne h]
    refine iff_of_false (by simp) ?_
    rintro ⟨_, _, _, _, _, _, rfl, -⟩
    exact h rfl

theorem stopsAtFirst_of_length_eq {args : List String} (h : args.length = 6) :
    StopsAtFirst (Argument.all.zip args) (readParams args) := by
  obtain ⟨a, b, c, d, e, f, rfl⟩ := exists_of_length_eq h
  exact stopsAtFirst_readParams a b c d e f

theorem readParams_error_cases {args : List String} {e : UsageError}
    (h : readParams args = .error e) :
    e = .argumentCount args.length ∨ ∃ argument, e.argument? = some argument := by
  by_cases hlength : args.length = 6
  · exact .inr ((stopsAtFirst_of_length_eq hlength).argument?_of_error h)
  · rw [readParams_of_length_ne hlength] at h
    cases h
    exact .inl rfl

/-! ### Any arguments -/

/-- How the reading of arguments ends. -/
structure ReadsArguments (args : List String) : Prop where
  /-- Parameters are read from six arguments that are all in their notation, and from no others. -/
  accepted_iff : (∃ p, Request.ofArgs ("custom" :: args) = .ok (.custom p)) ↔
    args.length = 6 ∧ ∀ x ∈ Argument.all.zip args, x.1.Accepts x.2
  /-- The parameters are the ones that are written. -/
  params_iff : ∀ p, Request.ofArgs ("custom" :: args) = .ok (.custom p) ↔ Describes args p
  /-- White space alone is no number of a list, while an empty piece does not count. -/
  blank_refused : ∀ (s : String), ∀ piece ∈ Text.entries s.toList,
    (∀ c ∈ piece, Text.isBlank c = true) → ¬Argument.arityBits.Accepts s
  /-- And then they are evaluated. -/
  evaluated : ∀ p, Request.ofArgs ("custom" :: args) = .ok (.custom p) →
    run ("custom" :: args) = ⟨0, (customTable p).draw, warningText p⟩
  /-- A wrong number of arguments is an error before any of them is read. -/
  argumentCount_iff : ∀ n, Request.ofArgs ("custom" :: args) = .error (.argumentCount n) ↔
    args.length ≠ 6 ∧ n = args.length
  /-- Otherwise the error is about the first argument that is not in its notation. -/
  refused_iff : ∀ argument,
    (∃ e, Request.ofArgs ("custom" :: args) = .error e ∧ e.argument? = some argument) ↔
      args.length = 6 ∧ FirstRefused (Argument.all.zip args) argument
  /-- There are no other errors. -/
  error_cases : ∀ e, Request.ofArgs ("custom" :: args) = .error e →
    e = .argumentCount args.length ∨ ∃ argument, e.argument? = some argument
  /-- What is printed about an argument has its name. -/
  message_names : ∀ (e : UsageError) (argument : Argument), e.argument? = some argument →
    ∃ why, e.message = "Error: parsing " ++ argument.name ++ ": " ++ why ++ "\n"
  names : Argument.all.map Argument.name =
    ["rate_bits", "codeword_size_bits", "m", "field_size_bits", "num_queries", "arity_bits"]

theorem run_of_ok {args : List String} {request : Request} (h : Request.ofArgs args = .ok request) :
    run args = request.report := by
  rw [run, h]

theorem run_of_error {args : List String} {e : UsageError} (h : Request.ofArgs args = .error e) :
    run args = ⟨1, "", e.message⟩ := by
  rw [run, h]

theorem ofArgs_custom (args : List String) :
    Request.ofArgs ("custom" :: args) = (readParams args).map .custom := by
  rw [Request.ofArgs, if_neg (by decide), if_neg (by decide), if_pos rfl]

theorem ofArgs_custom_eq_ok_iff {args : List String} {p : Params Binary64} :
    Request.ofArgs ("custom" :: args) = .ok (.custom p) ↔ readParams args = .ok p := by
  rw [ofArgs_custom, map_eq_ok_iff]
  simp

theorem ofArgs_custom_eq_error_iff {args : List String} {e : UsageError} :
    Request.ofArgs ("custom" :: args) = .error e ↔ readParams args = .error e := by
  rw [ofArgs_custom, map_eq_error_iff]

/-- **How the reading of any arguments ends.** -/
theorem readsArguments (args : List String) : ReadsArguments args := by
  refine {
    accepted_iff := ?_
    params_iff := fun p => ofArgs_custom_eq_ok_iff.trans readParams_eq_ok_iff
    blank_refused := ?_
    evaluated := ?_
    argumentCount_iff := ?_
    refused_iff := ?_
    error_cases := ?_
    message_names := fun e argument => UsageError.message_of_argument?
    names := rfl }
  · simp only [ofArgs_custom_eq_ok_iff]
    by_cases h : args.length = 6
    · rw [(stopsAtFirst_of_length_eq h).exists_ok_iff]
      exact (and_iff_right h).symm
    · simp [readParams_of_length_ne h, h]
  · intro s piece hpiece hblank haccepts
    obtain ⟨n, hn, -⟩ := haccepts piece hpiece
    exact Text.not_entry_of_blank hblank hn
  · exact fun p hp => run_of_ok hp
  · intro n
    rw [ofArgs_custom_eq_error_iff]
    by_cases h : args.length = 6
    · refine iff_of_false (fun hn => ?_) fun hn => hn.1 h
      obtain ⟨argument, hargument⟩ := (stopsAtFirst_of_length_eq h).argument?_of_error hn
      cases hargument
    · simp [readParams_of_length_ne h, h, eq_comm]
  · intro argument
    simp only [ofArgs_custom_eq_error_iff]
    by_cases h : args.length = 6
    · rw [(stopsAtFirst_of_length_eq h).exists_error_iff]
      exact (and_iff_right h).symm
    · simp [readParams_of_length_ne h, h, UsageError.argument?]
  · exact fun e he => readParams_error_cases (ofArgs_custom_eq_error_iff.mp he)

end FriBound.Command
