/-!
# Text input streams

The part of `std::istream` that a text format is read with: formatted extraction
of words and unsigned numbers, `get` and `getline`.  A stream is the text that is
left together with `eofbit` and `failbit`; an extraction from a stream that is not
good sets `failbit` and leaves its target as it was, so every reader takes the old
value of its target.

The lemmas say what each reader does on the text that the matching writer puts
out: a word followed by a blank, a decimal number followed by a blank, a line
followed by its newline.
-/

namespace DistributedLab.TextStream

/-- `isspace` in the "C" locale. -/
def isSpace (c : Char) : Bool :=
  c == ' ' || c == '\t' || c == '\n' || c == '\x0b' || c == '\x0c' || c == '\r'

structure IStream where
  rest : List Char
  eof : Bool := false
  fail : Bool := false
deriving DecidableEq, Repr

/-- A stream opened on a text. -/
def IStream.on (text : List Char) : IStream := { rest := text }

def IStream.good (s : IStream) : Bool := !s.eof && !s.fail

@[simp] theorem IStream.good_on (text : List Char) : (IStream.on text).good = true := rfl

@[simp] theorem IStream.fail_on (text : List Char) : (IStream.on text).fail = false := rfl

@[simp] theorem IStream.rest_on (text : List Char) : (IStream.on text).rest = text := rfl

/-! ### Readers -/

/-- The sentry of a formatted extraction: skip blanks, and fail at the end of the text.
    The flag tells whether the extraction goes ahead. -/
def IStream.sentry (s : IStream) : IStream × Bool :=
  if s.good then
    match s.rest.dropWhile isSpace with
    | [] => ({ rest := [], eof := true, fail := true }, false)
    | c :: rest => ({ s with rest := c :: rest }, true)
  else
    ({ s with fail := true }, false)

/-- `>>` into a string: the characters up to the next blank. -/
def IStream.readString (s : IStream) (old : String) : String × IStream :=
  if s.sentry.2 then
    let word := s.sentry.1.rest.takeWhile fun c => !isSpace c
    let rest := s.sentry.1.rest.dropWhile fun c => !isSpace c
    (String.ofList word, { rest := rest, eof := rest.isEmpty, fail := word.isEmpty })
  else
    (old, s.sentry.1)

/-- `>>` into an unsigned integer below `bound`.  Without digits the target becomes 0 and
    out of range it becomes the greatest value, both with `failbit`; a minus sign negates
    modulo `bound`. -/
def IStream.readUnsigned (bound : Nat) (s : IStream) (old : Nat) : Nat × IStream :=
  if s.sentry.2 then
    let text := s.sentry.1.rest
    let unsignedText := if text.head? = some '-' ∨ text.head? = some '+' then text.tail else text
    let digits := unsignedText.takeWhile Char.isDigit
    let rest := unsignedText.dropWhile Char.isDigit
    let n := Nat.ofDigitChars 10 digits 0
    if digits = [] then
      (0, { rest := rest, eof := rest.isEmpty, fail := true })
    else if n < bound then
      (if text.head? = some '-' then (bound - n) % bound else n,
        { rest := rest, eof := rest.isEmpty })
    else
      (bound - 1, { rest := rest, eof := rest.isEmpty, fail := true })
  else
    (old, s.sentry.1)

/-- `get()`, the character itself being dropped. -/
def IStream.get (s : IStream) : IStream :=
  if s.good then
    match s.rest with
    | [] => { rest := [], eof := true, fail := true }
    | _ :: rest => { s with rest := rest }
  else
    { s with fail := true }

/-- `getline`: the characters up to the next newline, which is taken as well. -/
def IStream.getline (s : IStream) (old : String) : String × IStream :=
  if s.good then
    let line := s.rest.takeWhile fun c => c != '\n'
    match s.rest.dropWhile fun c => c != '\n' with
    | [] => (String.ofList line, { rest := [], eof := true, fail := line.isEmpty })
    | _ :: rest => (String.ofList line, { s with rest := rest })
  else
    (old, { s with fail := true })

/-! ### Words -/

/-- A name that `>>` reads back: not empty and without blanks. -/
def IsWord (word : String) : Prop := word ≠ "" ∧ ∀ c ∈ word.toList, isSpace c = false

instance (word : String) : Decidable (IsWord word) :=
  -- go through the letters of the word, not through all values of `Char`
  @instDecidableAnd _ _ _ (List.decidableBAll _ word.toList)

theorem IsWord.toList_ne_nil {word : String} (h : IsWord word) : word.toList ≠ [] := by
  intro hnil
  exact h.1 (String.toList_inj.mp (by simpa using hnil))

/-- A text that starts with a visible character is where the sentry stops. -/
theorem IStream.sentry_blanks {blanks : List Char} (text : List Char)
    (hblanks : ∀ c ∈ blanks, isSpace c = true)
    (htext : ∃ c rest, text = c :: rest ∧ isSpace c = false) :
    (IStream.on (blanks ++ text)).sentry = (IStream.on text, true) := by
  obtain ⟨c, rest, rfl, hc⟩ := htext
  simp [IStream.sentry, List.dropWhile_append_of_pos hblanks, hc, IStream.on, IStream.good]

/-- At the end of the text a formatted extraction fails and leaves its target alone. -/
theorem IStream.readString_blanks {blanks : List Char} {old : String}
    (hblanks : ∀ c ∈ blanks, isSpace c = true) :
    (IStream.on blanks).readString old = (old, { rest := [], eof := true, fail := true }) := by
  have hdrop : blanks.dropWhile isSpace = [] := by
    rw [← List.append_nil blanks, List.dropWhile_append_of_pos hblanks]
    rfl
  simp [IStream.readString, IStream.sentry, hdrop]

/-- `>>` reads back a word that a blank follows. -/
theorem IStream.readString_word {blanks rest : List Char} {word old : String} {c : Char}
    (hblanks : ∀ b ∈ blanks, isSpace b = true) (hword : IsWord word) (hc : isSpace c = true) :
    (IStream.on (blanks ++ (word.toList ++ c :: rest))).readString old =
      (word, IStream.on (c :: rest)) := by
  obtain ⟨head, tail, hcons⟩ := List.exists_cons_of_ne_nil hword.toList_ne_nil
  have hhead : isSpace head = false := hword.2 head (by rw [hcons]; exact List.mem_cons_self)
  have hsentry := IStream.sentry_blanks (word.toList ++ c :: rest) hblanks
    ⟨head, tail ++ c :: rest, by rw [hcons]; rfl, hhead⟩
  have hvisible : ∀ b ∈ word.toList, (!isSpace b) = true := by
    intro b hb
    rw [hword.2 b hb]
    rfl
  simp only [IStream.readString, hsentry, if_true, IStream.rest_on,
    List.takeWhile_append_of_pos hvisible, List.dropWhile_append_of_pos hvisible]
  simp [hc, hword.toList_ne_nil, IStream.on]

/-- The usual case: one blank in front of the word. -/
theorem IStream.readString_cons_word {rest : List Char} {word old : String} {b c : Char}
    (hb : isSpace b = true) (hword : IsWord word) (hc : isSpace c = true) :
    (IStream.on (b :: (word.toList ++ c :: rest))).readString old =
      (word, IStream.on (c :: rest)) := by
  have hblanks : ∀ d ∈ [b], isSpace d = true := by simpa using hb
  exact IStream.readString_word hblanks hword hc

/-- `>>` reads back a word at the end of the text. -/
theorem IStream.readString_blanks_last {blanks : List Char} {word old : String}
    (hblanks : ∀ b ∈ blanks, isSpace b = true) (hword : IsWord word) :
    (IStream.on (blanks ++ word.toList)).readString old = (word, { rest := [], eof := true }) := by
  obtain ⟨head, tail, hcons⟩ := List.exists_cons_of_ne_nil hword.toList_ne_nil
  have hhead : isSpace head = false := hword.2 head (by rw [hcons]; exact List.mem_cons_self)
  have hsentry := IStream.sentry_blanks word.toList hblanks ⟨head, tail, hcons, hhead⟩
  have hvisible : ∀ b ∈ word.toList, (!isSpace b) = true := by
    intro b hb
    rw [hword.2 b hb]
    rfl
  have htake : word.toList.takeWhile (fun c => !isSpace c) = word.toList := by
    rw [← List.append_nil word.toList, List.takeWhile_append_of_pos hvisible]
    rfl
  have hdrop : word.toList.dropWhile (fun c => !isSpace c) = [] := by
    rw [← List.append_nil word.toList, List.dropWhile_append_of_pos hvisible]
    rfl
  simp only [IStream.readString, hsentry, if_true, IStream.rest_on, htake, hdrop,
    String.ofList_toList]
  simp [hword.toList_ne_nil]

theorem IStream.readString_last {word old : String} (hword : IsWord word) :
    (IStream.on word.toList).readString old = (word, { rest := [], eof := true }) :=
  IStream.readString_blanks_last (List.forall_mem_nil _) hword

/-- The sentry does not hold back without setting `failbit`. -/
theorem IStream.fail_of_sentry {s : IStream} (h : ¬ s.sentry.2 = true) : s.sentry.1.fail = true := by
  unfold IStream.sentry at h ⊢
  by_cases hgood : s.good = true
  · rw [if_pos hgood] at h ⊢
    cases hrest : s.rest.dropWhile isSpace with
    | nil => rfl
    | cons c rest => simp [hrest] at h
  · rw [if_neg hgood]

/-- What `>>` extracts, if it does, is a word. -/
theorem IStream.isWord_readString {s : IStream} {old : String}
    (h : (s.readString old).2.fail = false) : IsWord (s.readString old).1 := by
  unfold IStream.readString at h ⊢
  by_cases hsentry : s.sentry.2 = true
  · rw [if_pos hsentry] at h ⊢
    constructor
    · intro hempty
      have hnil := congrArg String.toList hempty
      rw [String.toList_ofList] at hnil
      simp [hnil] at h
    · intro c hc
      rw [String.toList_ofList] at hc
      simpa using List.all_eq_true.mp List.all_takeWhile c hc
  · rw [if_neg hsentry, IStream.fail_of_sentry hsentry] at h
    cases h

/-! ### Numbers -/

theorem isSpace_eq_false_of_isDigit {c : Char} (h : c.isDigit = true) : isSpace c = false := by
  simp only [isSpace, Bool.or_eq_false_iff, beq_eq_false_iff_ne]
  refine ⟨⟨⟨⟨⟨?_, ?_⟩, ?_⟩, ?_⟩, ?_⟩, ?_⟩ <;> rintro rfl <;> exact absurd h (by decide)

/-- `>>` reads the digits up to the first character that is none. -/
theorem IStream.readUnsigned_digits {bound old : Nat} {blanks digits rest : List Char}
    (hblanks : ∀ b ∈ blanks, isSpace b = true) (hne : digits ≠ [])
    (hdigits : ∀ d ∈ digits, d.isDigit = true) (hrest : ∀ c ∈ rest.head?, c.isDigit = false)
    (hn : Nat.ofDigitChars 10 digits 0 < bound) :
    (IStream.on (blanks ++ (digits ++ rest))).readUnsigned bound old =
      (Nat.ofDigitChars 10 digits 0, { rest := rest, eof := rest.isEmpty }) := by
  obtain ⟨head, tail, hcons⟩ := List.exists_cons_of_ne_nil hne
  have hhead : head.isDigit = true := hdigits head (by rw [hcons]; exact List.mem_cons_self)
  have hsentry : (IStream.on (blanks ++ (digits ++ rest))).sentry =
      (IStream.on (digits ++ rest), true) :=
    IStream.sentry_blanks (digits ++ rest) hblanks
      ⟨head, tail ++ rest, by rw [hcons]; rfl, isSpace_eq_false_of_isDigit hhead⟩
  have hhead? : (digits ++ rest).head? = some head := by rw [hcons]; rfl
  have hstop : rest.takeWhile Char.isDigit = [] ∧ rest.dropWhile Char.isDigit = rest := by
    cases rest with
    | nil => exact ⟨rfl, rfl⟩
    | cons c rest => simp [hrest c rfl]
  -- a digit is no sign
  have hminus : head ≠ '-' := by rintro rfl; exact absurd hhead (by decide)
  have hplus : head ≠ '+' := by rintro rfl; exact absurd hhead (by decide)
  simp only [IStream.readUnsigned, hsentry, if_true, IStream.rest_on, hhead?, Option.some.injEq,
    hminus, hplus, or_self, if_false, List.takeWhile_append_of_pos hdigits,
    List.dropWhile_append_of_pos hdigits, hstop.1, hstop.2, List.append_nil, if_neg hne, if_pos hn]

/-- `>>` reads back a decimal number that is not followed by another digit. -/
theorem IStream.readUnsigned_blanks_toDigits {bound n old : Nat} {blanks rest : List Char} {c : Char}
    (hblanks : ∀ b ∈ blanks, isSpace b = true) (hn : n < bound) (hc : c.isDigit = false) :
    (IStream.on (blanks ++ (Nat.toDigits 10 n ++ c :: rest))).readUnsigned bound old =
      (n, IStream.on (c :: rest)) := by
  have hdigits : ∀ d ∈ Nat.toDigits 10 n, d.isDigit = true := fun d hd =>
    Nat.isDigit_of_mem_toDigits (by decide) (by decide) hd
  rw [IStream.readUnsigned_digits hblanks Nat.toDigits_ne_nil hdigits (by simpa using hc)
    (by simpa [Nat.ofDigitChars_ten_toDigits] using hn), Nat.ofDigitChars_ten_toDigits]
  rfl

theorem IStream.readUnsigned_toDigits {bound n old : Nat} {rest : List Char} {b c : Char}
    (hb : isSpace b = true) (hn : n < bound) (hc : c.isDigit = false) :
    (IStream.on (b :: (Nat.toDigits 10 n ++ c :: rest))).readUnsigned bound old =
      (n, IStream.on (c :: rest)) := by
  have hblanks : ∀ d ∈ [b], isSpace d = true := by simpa using hb
  exact IStream.readUnsigned_blanks_toDigits hblanks hn hc

/-! ### Lines -/

theorem IStream.get_cons {c : Char} {rest : List Char} :
    (IStream.on (c :: rest)).get = IStream.on rest := rfl

/-- `getline` reads back a line without newline. -/
theorem IStream.getline_line {line old : String} {rest : List Char} (hline : '\n' ∉ line.toList) :
    (IStream.on (line.toList ++ '\n' :: rest)).getline old = (line, IStream.on rest) := by
  have hbefore : ∀ c ∈ line.toList, (c != '\n') = true := by
    intro c hc
    simp only [bne_iff_ne]
    rintro rfl
    exact hline hc
  simp [IStream.getline, List.takeWhile_append_of_pos hbefore,
    List.dropWhile_append_of_pos hbefore, IStream.on, IStream.good]

section Ended

variable {s : IStream}

theorem IStream.sentry_ended (h : s.good = false) : s.sentry = ({ s with fail := true }, false) := by
  simp [IStream.sentry, h]

theorem IStream.good_fail (s : IStream) : ({ s with fail := true } : IStream).good = false := by
  simp [IStream.good]

theorem IStream.readString_ended (h : s.good = false) (old : String) :
    s.readString old = (old, { s with fail := true }) := by
  simp [IStream.readString, IStream.sentry_ended h]

theorem IStream.readUnsigned_ended (h : s.good = false) (bound old : Nat) :
    s.readUnsigned bound old = (old, { s with fail := true }) := by
  simp [IStream.readUnsigned, IStream.sentry_ended h]

end Ended

/-! ### All words of a text -/

/-- The loop `while (ist >> word)`, with the words that it reads. -/
def IStream.readWords : Nat → String → IStream → List String
  | 0, _, _ => []
  | fuel + 1, word, s =>
      let read := s.readString word
      if read.2.fail then [] else read.1 :: readWords fuel read.1 read.2

/-- Every word takes a character, so the length of the text is enough fuel. -/
def words (text : List Char) : List String := IStream.readWords (text.length + 1) "" (.on text)

section Words

variable {word old : String} {text rest : List Char} {c : Char} {fuel : Nat}

theorem IStream.readWords_ended {s : IStream} (h : s.good = false) :
    IStream.readWords fuel old s = [] := by
  cases fuel with
  | zero => rfl
  | succ fuel => simp [IStream.readWords, IStream.readString_ended h]

theorem IStream.readWords_nil : IStream.readWords fuel old (.on []) = [] := by
  cases fuel with
  | zero => rfl
  | succ fuel => simp [IStream.readWords, IStream.readString_blanks (List.forall_mem_nil _)]

theorem IStream.readWords_blank (hc : isSpace c = true) :
    IStream.readWords fuel old (.on (c :: text)) = IStream.readWords fuel old (.on text) := by
  have hsentry : (IStream.on (c :: text)).sentry = (IStream.on text).sentry := by
    simp [IStream.sentry, IStream.on, IStream.good, hc]
  have hread : (IStream.on (c :: text)).readString old = (IStream.on text).readString old := by
    unfold IStream.readString
    rw [hsentry]
  cases fuel with
  | zero => rfl
  | succ fuel => rw [IStream.readWords, IStream.readWords, hread]

theorem IStream.readWords_word (hword : IsWord word) (hc : isSpace c = true) :
    IStream.readWords (fuel + 1) old (.on (word.toList ++ c :: rest)) =
      word :: IStream.readWords fuel word (.on rest) := by
  have hread : (IStream.on (word.toList ++ c :: rest)).readString old =
      (word, IStream.on (c :: rest)) :=
    IStream.readString_word (List.forall_mem_nil _) hword hc
  rw [IStream.readWords, hread]
  exact congrArg (word :: ·) (IStream.readWords_blank hc)

theorem IStream.readWords_last (hword : IsWord word) :
    IStream.readWords (fuel + 1) old (.on word.toList) = [word] := by
  rw [IStream.readWords, IStream.readString_last hword]
  exact congrArg (word :: ·) (IStream.readWords_ended rfl)

/-- A text begins with a blank or with a word, which is followed by a blank or by nothing. -/
inductive Beginning : List Char → Prop
  | nil : Beginning []
  | blank {c : Char} (text : List Char) (hc : isSpace c = true) : Beginning (c :: text)
  | last {word : String} (hword : IsWord word) : Beginning word.toList
  | word {word : String} {c : Char} (rest : List Char) (hword : IsWord word)
      (hc : isSpace c = true) : Beginning (word.toList ++ c :: rest)

theorem beginning (text : List Char) : Beginning text := by
  rcases text with _ | ⟨c, text⟩
  · exact .nil
  cases hc : isSpace c with
  | true => exact .blank text hc
  | false =>
      -- the characters up to the next blank
      have hword : IsWord (String.ofList ((c :: text).takeWhile fun d => !isSpace d)) := by
        constructor
        · intro hempty
          have hnil := congrArg String.toList hempty
          simp [hc] at hnil
        · intro d hd
          rw [String.toList_ofList] at hd
          simpa using List.all_eq_true.mp List.all_takeWhile d hd
      have hsplit := List.takeWhile_append_dropWhile (p := fun d => !isSpace d) (l := c :: text)
      rcases hrest : (c :: text).dropWhile (fun d => !isSpace d) with _ | ⟨d, rest⟩
      · rw [hrest, List.append_nil, ← String.toList_ofList (l := List.takeWhile _ _)] at hsplit
        exact hsplit ▸ .last hword
      · have hd : isSpace d = true := by
          have := List.head?_dropWhile_not (fun d => !isSpace d) (c :: text)
          rw [hrest] at this
          simpa using this
        rw [hrest, ← String.toList_ofList (l := List.takeWhile _ _)] at hsplit
        exact hsplit ▸ .word rest hword hd

theorem IStream.readWords_fuel (text : List Char) {fuel fuel' : Nat} {old old' : String}
    (hfuel : text.length < fuel) (hfuel' : text.length < fuel') :
    IStream.readWords fuel old (.on text) = IStream.readWords fuel' old' (.on text) := by
  obtain ⟨fuel, rfl⟩ := Nat.exists_eq_succ_of_ne_zero (Nat.ne_zero_of_lt hfuel)
  obtain ⟨fuel', rfl⟩ := Nat.exists_eq_succ_of_ne_zero (Nat.ne_zero_of_lt hfuel')
  cases beginning text with
  | nil => rw [IStream.readWords_nil, IStream.readWords_nil]
  | blank text hc =>
      rw [IStream.readWords_blank hc, IStream.readWords_blank hc]
      exact IStream.readWords_fuel text (Nat.lt_of_succ_lt hfuel) (Nat.lt_of_succ_lt hfuel')
  | last hword => rw [IStream.readWords_last hword, IStream.readWords_last hword]
  | word rest hword hc =>
      rw [IStream.readWords_word hword hc, IStream.readWords_word hword hc]
      simp only [List.length_append, List.length_cons] at hfuel hfuel'
      exact congrArg (_ :: ·) (IStream.readWords_fuel rest (by omega) (by omega))
termination_by text.length

theorem words_nil : words [] = [] := IStream.readWords_nil

theorem words_blank (hc : isSpace c = true) : words (c :: text) = words text := by
  rw [words, words, IStream.readWords_blank hc]
  exact IStream.readWords_fuel text (Nat.lt_succ_of_lt (Nat.lt_succ_self _)) (Nat.lt_succ_self _)

theorem words_last (hword : IsWord word) : words word.toList = [word] :=
  IStream.readWords_last hword

theorem words_word (hword : IsWord word) (hc : isSpace c = true) :
    words (word.toList ++ c :: rest) = word :: words rest := by
  rw [words, IStream.readWords_word hword hc, words]
  refine congrArg (word :: ·) (IStream.readWords_fuel rest ?_ (Nat.lt_succ_self _))
  simp only [List.length_append, List.length_cons]
  omega

/-- The words of two texts with a blank between them. -/
theorem words_append (text : List Char) (hc : isSpace c = true) :
    words (text ++ c :: rest) = words text ++ words rest := by
  cases beginning text with
  | nil => exact words_blank hc
  | blank text hb =>
      rw [List.cons_append, words_blank hb, words_blank hb]
      exact words_append text hc
  | last hword => rw [words_word hword hc, words_last hword, List.singleton_append]
  | word more hword hb =>
      rw [List.append_assoc, List.cons_append, words_word hword hb, words_word hword hb,
        List.cons_append, words_append more hc]
termination_by text.length

theorem IStream.isWord_of_mem_readWords {fuel : Nat} {old : String} {s : IStream}
    (h : word ∈ IStream.readWords fuel old s) : IsWord word := by
  induction fuel generalizing old s with
  | zero => cases h
  | succ fuel ih =>
      rw [IStream.readWords] at h
      split at h
      · cases h
      · rename_i hfail
        rcases List.mem_cons.mp h with rfl | hrest
        · exact IStream.isWord_readString (by simpa using hfail)
        · exact ih hrest

end Words

/-! ### Bytes

A `std::string` holds bytes; each is taken for the character with its code. -/

def charOf (b : UInt8) : Char := Char.ofNat b.toNat

def byteOf (c : Char) : UInt8 := UInt8.ofNat c.toNat

def ofBytes (buf : List UInt8) : List Char := buf.map charOf

def toBytes (text : List Char) : List UInt8 := text.map byteOf

theorem toNat_charOf (b : UInt8) : (charOf b).toNat = b.toNat := by
  have hvalid : b.toNat.isValidChar := .inl (Nat.lt_trans b.toNat_lt (by decide))
  rw [charOf, Char.ofNat, dif_pos hvalid]
  rfl

theorem byteOf_charOf (b : UInt8) : byteOf (charOf b) = b := by
  rw [byteOf, toNat_charOf]
  exact UInt8.ofNat_toNat

theorem charOf_byteOf {c : Char} (h : c.toNat < 256) : charOf (byteOf c) = c := by
  apply Char.ext
  apply UInt32.toNat_inj.mp
  have hcode : (byteOf c).toNat = c.toNat := by
    rw [byteOf, UInt8.toNat_ofNat']
    exact Nat.mod_eq_of_lt h
  exact (toNat_charOf _).trans hcode

theorem toBytes_ofBytes (buf : List UInt8) : toBytes (ofBytes buf) = buf := by
  rw [toBytes, ofBytes, List.map_map]
  exact List.map_id'' byteOf_charOf buf

theorem ofBytes_toBytes {text : List Char} (h : ∀ c ∈ text, c.toNat < 256) :
    ofBytes (toBytes text) = text := by
  rw [ofBytes, toBytes, List.map_map]
  calc text.map (charOf ∘ byteOf)
      = text.map id := List.map_congr_left fun c hc => charOf_byteOf (h c hc)
    _ = text := List.map_id text

/-! ### Texts that break off

A text that was written with a blank in front of each field may end anywhere.  A reader then
gets so much of its field as is there; of a number or a word of which nothing is there it
leaves its target as it was. -/

/-- The first `left` digits of a number. -/
def leftNumber (n left old : Nat) : Nat :=
  if (Nat.toDigits 10 n).take left = [] then old
  else Nat.ofDigitChars 10 ((Nat.toDigits 10 n).take left) 0

/-- The first `left` letters of a word. -/
def leftWord (word : String) (left : Nat) (old : String) : String :=
  if word.toList.take left = [] then old else String.ofList (word.toList.take left)

/-- The first `left` characters of a line. -/
def leftLine (line : String) (left : Nat) : String := String.ofList (line.toList.take left)

/-- What is left to read is a blank and the first `left` characters of `text`.  If none of them
    is left, the stream may also have ended before. -/
inductive IStream.Remains (text : List Char) : Nat → IStream → Prop
  | ended {s : IStream} (h : s.good = false) : Remains text 0 s
  | blank (left : Nat) : Remains text left (.on (' ' :: text.take left))

theorem take_append_cons {α : Type} (x y : List α) (c : α) {left : Nat} :
    (x ++ c :: y).take left =
      if left ≤ x.length then x.take left else x ++ c :: y.take (left - (x.length + 1)) := by
  split
  · rename_i hle
    exact List.take_append_of_le_length hle
  · rename_i hlt
    obtain ⟨more, hmore⟩ := Nat.exists_eq_add_of_lt (Nat.not_le.mp hlt)
    have hleft : left = x.length + (more + 1) := by omega
    rw [hleft, List.take_length_add_append, List.take_succ_cons]
    congr 3
    omega

theorem le_ofDigitChars (digits : List Char) (init : Nat) :
    init ≤ Nat.ofDigitChars 10 digits init := by
  induction digits generalizing init with
  | nil => exact Nat.le_refl _
  | cons c digits ih =>
      rw [Nat.ofDigitChars_cons]
      exact Nat.le_trans (by omega) (ih _)

/-- The first digits of a number are not a greater number. -/
theorem ofDigitChars_take_le (n left : Nat) :
    Nat.ofDigitChars 10 ((Nat.toDigits 10 n).take left) 0 ≤ n := by
  have hsplit := congrArg (fun digits => Nat.ofDigitChars 10 digits 0)
    (List.take_append_drop left (Nat.toDigits 10 n))
  simp only [Nat.ofDigitChars_append, Nat.ofDigitChars_ten_toDigits] at hsplit
  exact Nat.le_trans (le_ofDigitChars _ _) (Nat.le_of_eq hsplit)

section Remains

variable {s : IStream} {left : Nat} {more : List Char}

/-- A number, with a blank and another field behind it. -/
theorem IStream.Remains.readUnsigned {bound n : Nat} (hn : n < bound) (old : Nat)
    (h : Remains (Nat.toDigits 10 n ++ ' ' :: more) left s) :
    (s.readUnsigned bound old).1 = leftNumber n left old ∧
      Remains more (left - ((Nat.toDigits 10 n).length + 1)) (s.readUnsigned bound old).2 := by
  have hblank : isSpace ' ' = true := by decide
  have hdigits : ∀ d ∈ Nat.toDigits 10 n, d.isDigit = true := fun d hd =>
    Nat.isDigit_of_mem_toDigits (by decide) (by decide) hd
  cases h with
  | ended hs =>
      rw [IStream.readUnsigned_ended hs, Nat.zero_sub]
      exact ⟨by simp [leftNumber], .ended s.good_fail⟩
  | blank left =>
      rw [take_append_cons]
      split
      · -- the text ends with the digits that are left
        rename_i hle
        have hnone : left - ((Nat.toDigits 10 n).length + 1) = 0 := by omega
        rw [hnone]
        by_cases hempty : (Nat.toDigits 10 n).take left = []
        · have hread : (IStream.on [' ']).readUnsigned bound old =
              (old, { rest := [], eof := true, fail := true }) := by
            simp [IStream.readUnsigned, IStream.sentry, hblank]
          rw [hempty, hread]
          exact ⟨by simp [leftNumber, hempty], .ended rfl⟩
        · have hblanks : ∀ b ∈ [' '], isSpace b = true := by simp [isSpace]
          have hread : (IStream.on ([' '] ++ ((Nat.toDigits 10 n).take left ++ []))).readUnsigned bound
              old = (Nat.ofDigitChars 10 ((Nat.toDigits 10 n).take left) 0, _) :=
            IStream.readUnsigned_digits hblanks hempty
              (fun d hd => hdigits d (List.mem_of_mem_take hd)) (by simp)
              (Nat.lt_of_le_of_lt (ofDigitChars_take_le n left) hn)
          rw [List.append_nil, List.singleton_append] at hread
          rw [hread]
          exact ⟨by simp [leftNumber, hempty], .ended rfl⟩
      · rename_i hlt
        have hall : (Nat.toDigits 10 n).take left = Nat.toDigits 10 n :=
          List.take_of_length_le (by omega)
        rw [IStream.readUnsigned_toDigits hblank hn (by decide)]
        refine ⟨?_, .blank _⟩
        simp [leftNumber, hall, Nat.toDigits_ne_nil, Nat.ofDigitChars_ten_toDigits]

theorem IsWord.take {word : String} (h : IsWord word) (hne : word.toList.take left ≠ []) :
    IsWord (String.ofList (word.toList.take left)) := by
  constructor
  · intro hempty
    exact hne (by simpa using congrArg String.toList hempty)
  · intro c hc
    rw [String.toList_ofList] at hc
    exact h.2 c (List.mem_of_mem_take hc)

/-- The text ends within a word, or before it. -/
theorem IStream.readString_take {word : String} (hword : IsWord word) (left : Nat) (old : String) :
    ((IStream.on (' ' :: word.toList.take left)).readString old).1 = leftWord word left old ∧
      ((IStream.on (' ' :: word.toList.take left)).readString old).2.good = false := by
  have hblanks : ∀ b ∈ [' '], isSpace b = true := by simp [isSpace]
  by_cases hempty : word.toList.take left = []
  · rw [hempty, IStream.readString_blanks hblanks]
    exact ⟨by simp [leftWord, hempty], rfl⟩
  · have hread : (IStream.on ([' '] ++ (String.ofList (word.toList.take left)).toList)).readString
        old = (String.ofList (word.toList.take left), _) :=
      IStream.readString_blanks_last hblanks (hword.take hempty)
    rw [String.toList_ofList, List.singleton_append] at hread
    rw [hread]
    exact ⟨by simp [leftWord, hempty], rfl⟩

/-- A word, with a blank and another field behind it. -/
theorem IStream.Remains.readString {word : String} (hword : IsWord word) (old : String)
    (h : Remains (word.toList ++ ' ' :: more) left s) :
    (s.readString old).1 = leftWord word left old ∧
      Remains more (left - (word.toList.length + 1)) (s.readString old).2 := by
  have hblank : isSpace ' ' = true := by decide
  cases h with
  | ended hs =>
      rw [IStream.readString_ended hs, Nat.zero_sub]
      exact ⟨by simp [leftWord], .ended s.good_fail⟩
  | blank left =>
      rw [take_append_cons]
      split
      · rename_i hle
        obtain ⟨hread, hended⟩ := IStream.readString_take hword left old
        have hnone : left - (word.toList.length + 1) = 0 := by omega
        rw [hnone]
        exact ⟨hread, .ended hended⟩
      · rename_i hlt
        have hall : word.toList.take left = word.toList := List.take_of_length_le (by omega)
        rw [IStream.readString_cons_word hblank hword hblank]
        refine ⟨?_, .blank _⟩
        simp [leftWord, hall, hword.1]

/-- A word at the end of the line. -/
theorem IStream.Remains.readString_last {word : String} (hword : IsWord word) (old : String)
    (h : Remains word.toList left s) :
    (s.readString old).1 = leftWord word left old ∧ (s.readString old).2.good = false := by
  cases h with
  | ended hs =>
      rw [IStream.readString_ended hs]
      exact ⟨by simp [leftWord], s.good_fail⟩
  | blank left => exact IStream.readString_take hword left old

/-- The rest of the line, behind its blank. -/
theorem IStream.Remains.getline {line : String} (hline : '\n' ∉ line.toList)
    (h : Remains line.toList left s) :
    (s.get.getline "").1 = leftLine line left ∧ (s.get.getline "").2.good = false := by
  cases h with
  | ended hs =>
      have hget : s.get = { s with fail := true } := by simp [IStream.get, hs]
      rw [hget]
      simp [IStream.getline, leftLine, IStream.good]
  | blank left =>
      have hbefore : ∀ c ∈ line.toList.take left, (c != '\n') = true := by
        intro c hc
        simp only [bne_iff_ne]
        rintro rfl
        exact hline (List.mem_of_mem_take hc)
      have htake : (line.toList.take left).takeWhile (fun c => c != '\n') =
          line.toList.take left := by
        rw [← List.append_nil (line.toList.take left), List.takeWhile_append_of_pos hbefore]
        rfl
      have hdrop : (line.toList.take left).dropWhile (fun c => c != '\n') = [] := by
        rw [← List.append_nil (line.toList.take left), List.dropWhile_append_of_pos hbefore]
        rfl
      have hread : (IStream.on (line.toList.take left)).getline "" =
          (leftLine line left,
            { rest := [], eof := true, fail := (line.toList.take left).isEmpty }) := by
        simp [IStream.getline, htake, hdrop, leftLine]
      rw [IStream.get_cons, hread]
      exact ⟨rfl, rfl⟩

end Remains

end DistributedLab.TextStream
