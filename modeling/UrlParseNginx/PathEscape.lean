import UrlParseNginx.OriginFormMeaning

/-!
`PATH_ESCAPE_SET` and what encoding a path with it does to the parser's input. The
`percent-encoding` crate is a parameter: its sets are built with `add` from `CONTROLS`,
and `percent_encode` escapes the bytes of a set and the bytes that are not ASCII.
-/
namespace UrlParseNginx
open Ascii PercentCoding DotSegments

/-- What the source uses of the `percent-encoding` crate. -/
structure PercentEncoding where
  AsciiSet : Type
  CONTROLS : AsciiSet
  add : AsciiSet → UInt8 → AsciiSet
  contains : AsciiSet → UInt8 → Bool
  percentEncode : List UInt8 → AsciiSet → List UInt8

/-- What the crate documents of it. -/
structure PercentEncoding.Documented (crate : PercentEncoding) : Prop where
  controls : ∀ b < 0x80, crate.contains crate.CONTROLS b = (b < 0x20 || b = 0x7f)
  add : ∀ set, ∀ a < 0x80, ∀ b < 0x80,
    crate.contains (crate.add set a) b = (b = a || crate.contains set b)
  encodes : ∀ s set,
    crate.percentEncode s set = encode (fun b => 0x80 ≤ b || crate.contains set b) s

/-- The arguments of the `.add` calls, in their order. -/
def addedBytes : List UInt8 :=
  [space, quote, hash, percent, less, greater, question, backslash, caret, backtick, leftBrace,
    bar, rightBrace]

/-- `CONTROLS.add(b' ').add(b'"')` and so on. -/
def PATH_ESCAPE_SET (crate : PercentEncoding) : crate.AsciiSet :=
  addedBytes.foldl crate.add crate.CONTROLS

/-- The bytes that encoding with the set escapes, whatever the crate does inside. -/
def escaped (b : UInt8) : Bool := 0x80 ≤ b || (b ∈ addedBytes || (b < 0x20 || b = 0x7f))

theorem PercentEncoding.Documented.contains_foldl {crate : PercentEncoding}
    (h : crate.Documented) {l : List UInt8} (hl : ∀ a ∈ l, a < 0x80) (set : crate.AsciiSet)
    {b : UInt8} (hb : b < 0x80) :
    crate.contains (l.foldl crate.add set) b = (decide (b ∈ l) || crate.contains set b) := by
  induction l generalizing set with
  | nil => simp
  | cons a l ih =>
      rw [List.foldl_cons, ih (fun c hc => hl c (by simp [hc])), h.add _ _ (hl a (by simp)) _ hb]
      by_cases hba : b = a <;> simp [hba]

theorem percentEncode_eq {crate : PercentEncoding} (h : crate.Documented) (s : List UInt8) :
    crate.percentEncode s (PATH_ESCAPE_SET crate) = encode escaped s := by
  rw [h.encodes]
  congr 1
  funext b
  by_cases hb : 0x80 ≤ b
  · simp [escaped, hb]
  · have hlt : b < 0x80 := UInt8.not_le.mp hb
    have hall : addedBytes.all (· < 0x80) = true := by decide
    have hascii : ∀ a ∈ addedBytes, a < 0x80 := fun a ha =>
      of_decide_eq_true (List.all_eq_true.mp hall a ha)
    rw [PATH_ESCAPE_SET, h.contains_foldl hascii _ hlt, h.controls b hlt, escaped]

/-- The bytes that encoding leaves raw have no meaning in a path but for `/`, `.` and `+`,
and the encoder's own bytes have none but for `%`. -/
theorem raw_byte {b : UInt8} (h : escaped b = false) :
    ¬ Blank b ∧ b ≠ hash ∧ b ≠ question ∧ b ≠ percent := by
  revert h
  apply forall_byte (P := fun b =>
    escaped b = false → ¬ Blank b ∧ b ≠ hash ∧ b ≠ question ∧ b ≠ percent)
  decide +kernel

theorem encoder_byte {b : UInt8} (h : b = percent ∨ ∃ n < 16, b = hexDigit n) :
    ¬ Blank b ∧ b ≠ hash ∧ b ≠ question := by
  cases h with
  | inl h =>
      subst h
      decide
  | inr h =>
      obtain ⟨n, hn, rfl⟩ := h
      revert hn
      apply forall_byte (P := fun n =>
        n < 16 → ¬ Blank (hexDigit n) ∧ hexDigit n ≠ hash ∧ hexDigit n ≠ question)
      decide +kernel

theorem encoded_byte {s : List UInt8} {b : UInt8} (h : b ∈ encode escaped s) :
    ¬ Blank b ∧ b ≠ hash ∧ b ≠ question := by
  obtain hb | hb | ⟨_, hb⟩ := MarkedCoding.mem_encode h
  · exact encoder_byte (.inl hb)
  · exact encoder_byte (.inr hb)
  · obtain ⟨hblank, hhash, hquestion, _⟩ := raw_byte hb
    exact ⟨hblank, hhash, hquestion⟩

theorem encode_slash (s : List UInt8) :
    encode escaped (slash :: s) = slash :: encode escaped s := by
  rw [encode, MarkedCoding.encode_cons, MarkedCoding.encodeByte_of_not_mem (by decide)]
  rfl

theorem decodePath_encode {s : List UInt8} (hnul : nul ∉ s) :
    decodePath (encode escaped s) = some s := by
  rw [decodePath_of_tokenize (tokenize_encode (by decide) s), if_neg]
  · have hbyte : Token.byte ∘ (fun b => if escaped b then Token.esc b else .lit b) = id := by
      funext b
      simp only [Function.comp_apply]
      split <;> rfl
    rw [bytes, List.map_map, hbyte, List.map_id]
  · intro hmem
    obtain ⟨b, hb, heq⟩ := List.mem_map.mp hmem
    split at heq
    · exact hnul (Token.esc.inj heq ▸ hb)
    · cases heq

theorem encoded_no_delimiter (s : List UInt8) :
    question ∉ encode escaped s ∧ hash ∉ encode escaped s :=
  ⟨fun h => (encoded_byte h).2.2 rfl, fun h => (encoded_byte h).2.1 rfl⟩

theorem wellFormed_encode {path : List UInt8} (hhead : path.head? = some slash) :
    WellFormed (encode escaped path) := by
  refine ⟨?_, fun b hb => (encoded_byte hb).1⟩
  cases path with
  | nil => simp at hhead
  | cons b rest =>
      obtain rfl : b = slash := Option.some.inj hhead
      rw [encode_slash]
      rfl

/-- The parser on an encoded path sees the path itself. -/
theorem normalPath_encode {path : List UInt8} (hhead : path.head? = some slash)
    (hnul : nul ∉ path) (mergeSlashes : Bool) :
    normalPath mergeSlashes (encode escaped path) = normalizePath slash dot mergeSlashes path := by
  obtain ⟨hq, hh⟩ := encoded_no_delimiter path
  rw [normalPath_eq (wellFormed_encode hhead), rawPath_alone hq hh, decodePath_encode hnul,
    Option.bind_some]

end UrlParseNginx
