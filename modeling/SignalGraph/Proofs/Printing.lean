/-
Reading back what was written.

Between the text of a value and the value stand its tokens. The text has these tokens in every
layout (`scan?_write`), and they build the value again (`ofTokens?_tokens`).

Both are stated with anything that may follow. A word or a numeral goes on as long as its
characters do, so what follows a value has to begin with a character of neither kind
(`Breaks`): a blank, a comma or a bracket does.
-/
import SignalGraph.Json.Parser
import SignalGraph.Json.Printer

namespace SignalGraph

namespace Json

mutual

/-- The tokens of a value. -/
def tokens : Json → List Token
  | null => [.null]
  | bool b => [.bool b]
  | nat n => [.nat n]
  | number => [.number]
  | text t => [.text t]
  | arr [] => [.openArr, .closeArr]
  | arr (v :: rest) => .openArr :: (v.tokens ++ (itemTokens rest ++ [.closeArr]))
  | obj [] => [.openObj, .closeObj]
  | obj ((name, v) :: rest) =>
    .openObj :: .text name :: .colon :: (v.tokens ++ (fieldTokens rest ++ [.closeObj]))

/-- The tokens of the items after the first. -/
def itemTokens : List Json → List Token
  | [] => []
  | v :: rest => .comma :: (v.tokens ++ itemTokens rest)

/-- The tokens of the fields after the first. -/
def fieldTokens : List (Text × Json) → List Token
  | [] => []
  | (name, v) :: rest => .comma :: .text name :: .colon :: (v.tokens ++ fieldTokens rest)

end

end Json

/-! ## Single tokens -/

namespace Scan

/-- The tokens of what was read and of the characters that are left, the last first. -/
def read? (s : Scan) (cs : List Char) : Option (List Token) := (cs.foldlM step? s).bind finish?

theorem read?_cons (s : Scan) (c : Char) (cs : List Char) :
    s.read? (c :: cs) = (s.step? c).bind (·.read? cs) := by
  simp only [read?, List.foldlM_cons]
  cases s.step? c <;> rfl

theorem read?_of_step {s s' : Scan} {c : Char} (h : s.step? c = some s') (cs : List Char) :
    s.read? (c :: cs) = s'.read? cs := by
  rw [read?_cons, h, Option.bind_some]

theorem read?_punctuation {c : Char} {t : Token} (h : Token.ofPunctuation? c = some t) (ts : List Token)
    (cs : List Char) : read? ⟨ts, .blank⟩ (c :: cs) = read? ⟨t :: ts, .blank⟩ cs := by
  refine read?_of_step ?_ cs
  unfold Token.ofPunctuation? at h
  split at h <;> cases h <;> rfl

theorem read?_gap (l : Layout) (depth : Nat) (ts : List Token) (cs : List Char) :
    read? ⟨ts, .blank⟩ (l.gap depth cs) = read? ⟨ts, .blank⟩ cs := by
  have hblanks : ∀ n, read? ⟨ts, .blank⟩ (List.replicate n ' ' ++ cs) = read? ⟨ts, .blank⟩ cs := by
    intro n
    induction n with
    | zero => rfl
    | succ n ih => exact (read?_of_step rfl _).trans ih
  cases l with
  | line => rfl
  | lines => exact (read?_of_step rfl _).trans (hblanks _)

theorem read?_colon (l : Layout) (ts : List Token) (cs : List Char) :
    read? ⟨ts, .blank⟩ (l.colon cs) = read? ⟨.colon :: ts, .blank⟩ cs := by
  have hcolon := fun cs => read?_punctuation (c := ':') rfl ts cs
  cases l with
  | line => exact hcolon cs
  | lines => exact (hcolon _).trans (read?_of_step rfl cs)

/-! ## Words and numerals -/

/-- The characters go on with none that a word or a numeral may have. -/
def Breaks : List Char → Prop
  | [] => True
  | c :: _ => isWordChar c = false ∧ Numeral.isNumeralChar c = false

theorem read?_word {chars : List Char} {t : Token} (h : Token.ofWord? chars.reverse = some t) {cs : List Char}
    (hcs : Breaks cs) (ts : List Token) : read? ⟨ts, .word chars⟩ cs = read? ⟨t :: ts, .blank⟩ cs := by
  cases cs with
  | nil => simp [read?, finish?, h]
  | cons c cs => simp [read?_cons, step?, finish?, h, hcs.1]

/-- A token goes on as long as its characters do. -/
theorem read?_append {mode : List Char → ScanMode} {isPart : Char → Bool}
    (hmode : ∀ ts chars c, isPart c = true → step? ⟨ts, mode chars⟩ c = some ⟨ts, mode (c :: chars)⟩)
    {w : List Char} (hw : ∀ c ∈ w, isPart c = true) (ts : List Token) (cs : List Char) :
    ∀ chars, read? ⟨ts, mode chars⟩ (w ++ cs) = read? ⟨ts, mode (w.reverse ++ chars)⟩ cs := by
  induction w with
  | nil => exact fun _ => rfl
  | cons c w ih =>
    intro chars
    rw [List.cons_append, read?_of_step (hmode ts chars c (hw c (by simp))),
      ih fun c' hc' => hw c' (by simp [hc'])]
    simp

theorem step?_word (ts : List Token) (chars : List Char) (c : Char) (h : isWordChar c = true) :
    step? ⟨ts, .word chars⟩ c = some ⟨ts, .word (c :: chars)⟩ := by
  simp only [step?, h, if_true]

theorem step?_numeral (ts : List Token) (chars : List Char) (c : Char) (h : Numeral.isNumeralChar c = true) :
    step? ⟨ts, .numeral chars⟩ c = some ⟨ts, .numeral (c :: chars)⟩ := by
  simp only [step?, h, if_true]

theorem read?_ofWord {w : List Char} {t : Token} (h : Token.ofWord? w = some t) {cs : List Char}
    (hcs : Breaks cs) (ts : List Token) : read? ⟨ts, .blank⟩ (w ++ cs) = read? ⟨t :: ts, .blank⟩ cs := by
  unfold Token.ofWord? at h
  split at h <;> cases h
  all_goals
    exact (read?_of_step rfl _).trans <|
      (read?_append step?_word (List.all_eq_true.mp (by decide)) ts cs _).trans <| read?_word rfl hcs ts

theorem read?_numeral {chars : List Char} {t : Token} (h : Token.ofNumeral? chars.reverse = some t)
    {cs : List Char} (hcs : Breaks cs) (ts : List Token) :
    read? ⟨ts, .numeral chars⟩ cs = read? ⟨t :: ts, .blank⟩ cs := by
  cases cs with
  | nil => simp [read?, finish?, h]
  | cons c cs => simp [read?_cons, step?, finish?, h, hcs.2]

end Scan

namespace Numeral

theorem isNumeralChar_of_isDigit {c : Char} (h : c.isDigit = true) : isNumeralChar c = true := by
  simp [isNumeralChar, h]

theorem isDigit_of_mem {n : Nat} {c : Char} (h : c ∈ Nat.toDigits 10 n) : c.isDigit = true :=
  Nat.isDigit_of_mem_toDigits (by omega) (by omega) h

/-- A number other than zero is not written with a zero in front. -/
theorem head?_toDigits {n : Nat} (hn : n ≠ 0) : (Nat.toDigits 10 n).head? ≠ some '0' := by
  induction n using Nat.strongRecOn with
  | ind n ih =>
    rw [Nat.toDigits_eq_if (by omega)]
    split
    · simpa using hn
    · have hrest := ih (n / 10) (by omega) (by omega)
      rwa [List.head?_append, Option.or_of_isSome (by simp [Nat.toDigits_ne_nil])]

theorem isNat_toDigits (n : Nat) : isNat (Nat.toDigits 10 n) = true := by
  rcases Nat.eq_zero_or_pos n with rfl | hn
  · rfl
  · have hhead := head?_toDigits (by omega : n ≠ 0)
    have hall := List.all_eq_true.mpr fun c (hc : c ∈ Nat.toDigits 10 n) => isDigit_of_mem hc
    cases hdigits : Nat.toDigits 10 n with
    | nil => exact absurd hdigits Nat.toDigits_ne_nil
    | cons c cs =>
      rw [hdigits] at hhead hall
      have hc : c ≠ '0' := fun he => hhead (by rw [List.head?_cons, he])
      unfold isNat
      split
      · contradiction
      · rfl
      · next heq =>
        cases heq
        simp [hc, hall]

theorem natValue_toDigits (n : Nat) : natValue (Nat.toDigits 10 n) = n :=
  Nat.ofDigitChars_eq_foldl.symm.trans Nat.ofDigitChars_ten_toDigits

end Numeral

namespace Scan

theorem step?_digit {c : Char} (h : c.isDigit = true) (ts : List Token) :
    step? ⟨ts, .blank⟩ c = some ⟨ts, .numeral [c]⟩ := by
  have hne : ∀ x : Char, x.isDigit = false → c ≠ x := fun x hx he => by simp [← he, h] at hx
  have hblank : isBlank c = false := by
    simp [isBlank, hne ' ' rfl, hne '\t' rfl, hne '\n' rfl, hne '\r' rfl]
  have hword : isWordChar c = false := by
    have hle := (Char.isDigit_iff_toNat.mp h).2
    have hnot : ¬ 'a' ≤ c := fun ha => absurd (Nat.le_trans (UInt32.le_iff_toNat_le.mp ha) hle) (by decide)
    simp [isWordChar, hnot]
  simp [step?, begin?, hblank, hne '"' rfl, hword, Numeral.isNumeralChar, h]

theorem read?_nat (n : Nat) {cs : List Char} (hcs : Breaks cs) (ts : List Token) :
    read? ⟨ts, .blank⟩ ((toString n).toList ++ cs) = read? ⟨.nat n :: ts, .blank⟩ cs := by
  have htoken : Token.ofNumeral? (Nat.toDigits 10 n) = some (.nat n) := by
    rw [Token.ofNumeral?, if_pos (Numeral.isNat_toDigits n), Numeral.natValue_toDigits]
  rw [Nat.toString_eq_ofList_toDigits, String.toList_ofList]
  cases hdigits : Nat.toDigits 10 n with
  | nil => exact absurd hdigits Nat.toDigits_ne_nil
  | cons c w =>
    have hdigit : ∀ c' ∈ c :: w, c'.isDigit = true := fun c' hc' => Numeral.isDigit_of_mem (hdigits ▸ hc')
    rw [List.cons_append, read?_of_step (step?_digit (hdigit c (by simp)) ts), read?_append step?_numeral fun c' hc' =>
      Numeral.isNumeralChar_of_isDigit (hdigit c' (by simp [hc']))]
    exact read?_numeral (by simpa [hdigits] using htoken) hcs ts

end Scan

/-! ## String literals -/

theorem not_surrogate (c : Char) : isHighSurrogate c.toNat = false ∧ isLowSurrogate c.toNat = false := by
  have hvalid : c.toNat < 0xD800 ∨ 0xDFFF < c.toNat ∧ c.toNat < 0x110000 := c.valid
  simp only [isHighSurrogate, isLowSurrogate, Bool.and_eq_false_iff, decide_eq_false_iff_not]
  omega

theorem charsOfCodes?_map_toNat : ∀ cs : List Char, charsOfCodes? (cs.map Char.toNat) = some cs
  | [] => rfl
  | [c] => by simp [charsOfCodes?, not_surrogate]
  | c :: c' :: cs => by
    have ih := charsOfCodes?_map_toNat (c' :: cs)
    rw [List.map_cons] at ih
    simp [charsOfCodes?, not_surrogate, ih]

theorem hexDigit?_digitChar : ∀ k < 16, hexDigit? (Nat.digitChar k) = some k := by decide

namespace Scan

theorem read?_escape {x : Char} {code : Nat} (h : escapedCode? x = some code) (hx : x ≠ 'u') (ts : List Token)
    (codes : List Nat) (cs : List Char) :
    read? ⟨ts, .text codes⟩ ('\\' :: x :: cs) = read? ⟨ts, .text (code :: codes)⟩ cs := by
  refine (read?_of_step rfl _).trans (read?_of_step ?_ _)
  simp [step?, hx, h]

theorem read?_codeUnit {code : Nat} (h : code < 0x20) (ts : List Token) (codes : List Nat) (cs : List Char) :
    read? ⟨ts, .text codes⟩
        ('\\' :: 'u' :: '0' :: '0' :: Nat.digitChar (code / 16) :: Nat.digitChar (code % 16) :: cs) =
      read? ⟨ts, .text (code :: codes)⟩ cs := by
  have hhigh := hexDigit?_digitChar (code / 16) (by omega)
  have hlow := hexDigit?_digitChar (code % 16) (by omega)
  have hcode : 16 * (code / 16) + code % 16 = code := Nat.div_add_mod _ _
  refine (read?_of_step rfl _).trans <| (read?_of_step rfl _).trans <| (read?_of_step rfl _).trans <|
    (read?_of_step rfl _).trans ?_
  simp [read?_cons, step?, hhigh, hlow, hcode]

/-- However a character is written in a string literal, it is read as itself. -/
theorem read?_escapeChar (c : Char) (ts : List Token) (codes : List Nat) (cs : List Char) :
    read? ⟨ts, .text codes⟩ (escapeChar c ++ cs) = read? ⟨ts, .text (c.toNat :: codes)⟩ cs := by
  unfold escapeChar
  -- The seven characters that have a letter or themselves after the backslash.
  iterate 7
    split
    · next h =>
      subst h
      exact read?_escape rfl (by decide) ts codes cs
  split
  · next hcontrol => exact read?_codeUnit hcontrol ts codes cs
  · refine read?_of_step ?_ cs
    simp [step?, *]

theorem read?_escaped (ts : List Token) (cs : List Char) : ∀ (chars : List Char) (codes : List Nat),
    read? ⟨ts, .text codes⟩ (chars.flatMap escapeChar ++ '"' :: cs) =
      read? ⟨.text (.ofCodes (codes.reverse ++ chars.map Char.toNat)) :: ts, .blank⟩ cs
  | [], codes => (read?_of_step rfl cs).trans (by simp)
  | c :: chars, codes => by
    rw [List.flatMap_cons, List.append_assoc, read?_escapeChar, read?_escaped ts cs chars]
    simp

theorem read?_writeText (t : Text) (ts : List Token) (cs : List Char) :
    read? ⟨ts, .blank⟩ (writeText t cs) = read? ⟨.text t :: ts, .blank⟩ cs := by
  refine (read?_of_step rfl _).trans ?_
  cases t with
  | none =>
    -- Six characters escape half of a surrogate pair, and the literal ends after them.
    exact (read?_of_step rfl _).trans <| (read?_of_step rfl _).trans <| (read?_of_step rfl _).trans <|
      (read?_of_step rfl _).trans <| (read?_of_step rfl _).trans <| (read?_of_step rfl _).trans <|
      read?_of_step rfl _
  | some s =>
    have hcodes : Text.ofCodes (s.toList.map Char.toNat) = some s := by
      simp [Text.ofCodes, charsOfCodes?_map_toNat]
    exact (read?_escaped ts cs s.toList []).trans (by simp [hcodes])

/-! ## Values -/

theorem breaks_gap (l : Layout) (depth : Nat) {cs : List Char} (h : Breaks cs) : Breaks (l.gap depth cs) := by
  cases l with
  | line => exact h
  | lines => exact ⟨rfl, rfl⟩

theorem breaks_writeItems (l : Layout) (depth : Nat) (rest : List Json) {cs : List Char} (h : Breaks cs) :
    Breaks (Json.writeItems l depth rest cs) := by
  cases rest with
  | nil => rwa [Json.writeItems]
  | cons v rest => exact ⟨rfl, rfl⟩

theorem breaks_writeFields (l : Layout) (depth : Nat) (rest : List (Text × Json)) {cs : List Char}
    (h : Breaks cs) : Breaks (Json.writeFields l depth rest cs) := by
  cases rest with
  | nil => rwa [Json.writeFields]
  | cons f rest => exact ⟨rfl, rfl⟩

mutual

/-- A value is read as its tokens, in every layout and whatever follows it. -/
theorem read?_write (l : Layout) (depth : Nat) : ∀ (v : Json) {cs : List Char} (_ : Breaks cs) (ts : List Token),
    read? ⟨ts, .blank⟩ (v.write l depth cs) = read? ⟨v.tokens.reverse ++ ts, .blank⟩ cs
  | .null, cs, h, ts => by
    rw [Json.write, read?_ofWord rfl h]
    rfl
  | .bool true, cs, h, ts => by
    rw [Json.write, if_pos rfl, read?_ofWord rfl h]
    rfl
  | .bool false, cs, h, ts => by
    rw [Json.write, if_neg (by decide), read?_ofWord rfl h]
    rfl
  | .nat n, cs, h, ts => by
    rw [Json.write, read?_nat n h]
    rfl
  | .number, cs, h, ts => by
    rw [Json.write]
    exact (read?_of_step rfl _).trans <| (read?_of_step rfl _).trans <| read?_numeral rfl h ts
  | .text t, cs, _, ts => by
    rw [Json.write, read?_writeText]
    rfl
  | .arr [], cs, _, ts => by
    rw [Json.write, read?_punctuation rfl, read?_punctuation rfl]
    rfl
  | .arr (v :: rest), cs, _, ts => by
    have hend : Breaks (l.gap depth (']' :: cs)) := breaks_gap l depth ⟨rfl, rfl⟩
    rw [Json.write, read?_punctuation rfl, read?_gap, read?_write l (depth + 1) v (breaks_writeItems l _ rest hend),
      read?_writeItems l (depth + 1) rest hend, read?_gap, read?_punctuation rfl]
    simp [Json.tokens]
  | .obj [], cs, _, ts => by
    rw [Json.write, read?_punctuation rfl, read?_punctuation rfl]
    rfl
  | .obj ((name, v) :: rest), cs, _, ts => by
    have hend : Breaks (l.gap depth ('\x7d' :: cs)) := breaks_gap l depth ⟨rfl, rfl⟩
    rw [Json.write, read?_punctuation rfl, read?_gap, read?_writeText, read?_colon,
      read?_write l (depth + 1) v (breaks_writeFields l _ rest hend), read?_writeFields l (depth + 1) rest hend,
      read?_gap, read?_punctuation rfl]
    simp [Json.tokens]

theorem read?_writeItems (l : Layout) (depth : Nat) : ∀ (rest : List Json) {cs : List Char} (_ : Breaks cs)
    (ts : List Token),
    read? ⟨ts, .blank⟩ (Json.writeItems l depth rest cs) = read? ⟨(Json.itemTokens rest).reverse ++ ts, .blank⟩ cs
  | [], _, _, _ => by
    rw [Json.writeItems]
    rfl
  | v :: rest, cs, h, ts => by
    rw [Json.writeItems, read?_punctuation rfl, read?_gap, read?_write l depth v (breaks_writeItems l _ rest h),
      read?_writeItems l depth rest h]
    simp [Json.itemTokens]

theorem read?_writeFields (l : Layout) (depth : Nat) : ∀ (rest : List (Text × Json)) {cs : List Char}
    (_ : Breaks cs) (ts : List Token),
    read? ⟨ts, .blank⟩ (Json.writeFields l depth rest cs) = read? ⟨(Json.fieldTokens rest).reverse ++ ts, .blank⟩ cs
  | [], _, _, _ => by
    rw [Json.writeFields]
    rfl
  | (name, v) :: rest, cs, h, ts => by
    rw [Json.writeFields, read?_punctuation rfl, read?_gap, read?_writeText, read?_colon,
      read?_write l depth v (breaks_writeFields l _ rest h), read?_writeFields l depth rest h]
    simp [Json.fieldTokens]

end

end Scan

theorem Token.scan?_write (l : Layout) (v : Json) : Token.scan? (v.write l 0 []) = some v.tokens := by
  have hread : Scan.read? ⟨[], .blank⟩ (v.write l 0 []) = Scan.read? ⟨v.tokens.reverse ++ [], .blank⟩ [] :=
    Scan.read?_write l 0 v (show Scan.Breaks [] from trivial) []
  have hend : Scan.read? ⟨v.tokens.reverse ++ [], .blank⟩ [] = some v.tokens.reverse := by
    simp [Scan.read?, Scan.finish?]
  show (Scan.read? ⟨[], .blank⟩ (v.write l 0 [])).map List.reverse = some v.tokens
  rw [hread, hend, Option.map_some, List.reverse_reverse]

/-! ## From tokens to the value -/

namespace Parse

theorem foldlM_of_step {p p' : Parse} {t : Token} (h : p.step? t = some p') (ts : List Token) :
    (t :: ts).foldlM step? p = ts.foldlM step? p' := by
  rw [List.foldlM_cons, h]
  rfl

/-- No value begins with what would end an array. -/
theorem foldlM_firstItem (stack : List Frame) (v : Json) (ts : List Token) :
    (v.tokens ++ ts).foldlM step? ⟨stack, .firstItem⟩ = (v.tokens ++ ts).foldlM step? ⟨stack, .value⟩ := by
  cases v with
  | null | bool | nat | number | text => rfl
  | arr items => cases items <;> rfl
  | obj fields => cases fields <;> rfl

mutual

/-- The tokens of a value build it, whatever is open around it. -/
theorem foldlM_tokens : ∀ (v : Json) (stack : List Frame) (ts : List Token),
    (v.tokens ++ ts).foldlM step? ⟨stack, .value⟩ = ts.foldlM step? ⟨stack, .after v⟩
  | .null, _, _ | .bool _, _, _ | .nat _, _, _ | .number, _, _ | .text _, _, _ | .arr [], _, _ | .obj [], _, _ => rfl
  | .arr (v :: rest), stack, ts => by
    rw [Json.tokens, List.cons_append, foldlM_of_step rfl, List.append_assoc, List.append_assoc, foldlM_firstItem,
      foldlM_tokens v]
    exact foldlM_itemTokens rest [] v stack ts
  | .obj ((name, v) :: rest), stack, ts => by
    rw [Json.tokens, List.cons_append, foldlM_of_step rfl, List.cons_append, foldlM_of_step rfl, List.cons_append,
      foldlM_of_step rfl, List.append_assoc, List.append_assoc, foldlM_tokens v]
    exact foldlM_fieldTokens rest [] name v stack ts

theorem foldlM_itemTokens : ∀ (rest items : List Json) (v : Json) (stack : List Frame) (ts : List Token),
    (Json.itemTokens rest ++ .closeArr :: ts).foldlM step? ⟨.arr items :: stack, .after v⟩ =
      ts.foldlM step? ⟨stack, .after (.arr (items.reverse ++ v :: rest))⟩
  | [], items, v, stack, ts => (foldlM_of_step rfl ts).trans (by simp)
  | w :: rest, items, v, stack, ts => by
    rw [Json.itemTokens, List.cons_append, foldlM_of_step rfl, List.append_assoc, foldlM_tokens w,
      foldlM_itemTokens rest (v :: items) w stack ts]
    simp

theorem foldlM_fieldTokens : ∀ (rest fields : List (Text × Json)) (name : Text) (v : Json) (stack : List Frame)
    (ts : List Token),
    (Json.fieldTokens rest ++ .closeObj :: ts).foldlM step? ⟨.obj fields name :: stack, .after v⟩ =
      ts.foldlM step? ⟨stack, .after (.obj (fields.reverse ++ (name, v) :: rest))⟩
  | [], fields, name, v, stack, ts => (foldlM_of_step rfl ts).trans (by simp)
  | (name', w) :: rest, fields, name, v, stack, ts => by
    rw [Json.fieldTokens, List.cons_append, foldlM_of_step rfl, List.cons_append, foldlM_of_step rfl, List.cons_append,
      foldlM_of_step rfl, List.append_assoc, foldlM_tokens w, foldlM_fieldTokens rest ((name, v) :: fields) name' w]
    simp

end

end Parse

namespace Json

theorem ofTokens?_tokens (v : Json) : ofTokens? v.tokens = some v := by
  have htokens := Parse.foldlM_tokens v [] []
  rw [List.append_nil] at htokens
  rw [ofTokens?, Parse.start, htokens]
  rfl

/-- A text that was written is the text of one value. -/
theorem parse?_write (l : Layout) (v : Json) : parse? (String.ofList (v.write l 0 [])) = some v := by
  rw [parse?, String.toList_ofList, Token.scan?_write, Option.bind_some, ofTokens?_tokens]

end Json

end SignalGraph
