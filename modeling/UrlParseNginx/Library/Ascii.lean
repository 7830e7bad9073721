import Mathlib.Data.Fin.Basic

/-!
The ASCII bytes that URL syntax gives a meaning to, and case analysis over bytes.
-/
namespace Ascii

abbrev nul : UInt8 := 0x00
abbrev lineFeed : UInt8 := 0x0a
abbrev space : UInt8 := 0x20
abbrev quote : UInt8 := 0x22
abbrev hash : UInt8 := 0x23
abbrev percent : UInt8 := 0x25
abbrev plus : UInt8 := 0x2b
abbrev dot : UInt8 := 0x2e
abbrev slash : UInt8 := 0x2f
abbrev zero : UInt8 := 0x30
abbrev nine : UInt8 := 0x39
abbrev less : UInt8 := 0x3c
abbrev greater : UInt8 := 0x3e
abbrev question : UInt8 := 0x3f
abbrev backslash : UInt8 := 0x5c
abbrev caret : UInt8 := 0x5e
abbrev backtick : UInt8 := 0x60
abbrev lowerA : UInt8 := 0x61
abbrev lowerF : UInt8 := 0x66
abbrev leftBrace : UInt8 := 0x7b
abbrev bar : UInt8 := 0x7c
abbrev rightBrace : UInt8 := 0x7d
abbrev delete : UInt8 := 0x7f

/-- A control byte, the space or DEL. -/
abbrev Blank (b : UInt8) : Prop := b ≤ space ∨ b = delete

theorem forall_byte {P : UInt8 → Prop} (h : ∀ i : Fin 256, P (UInt8.ofNat i)) (b : UInt8) :
    P b := by
  have hb := h ⟨b.toNat, b.toNat_lt⟩
  rwa [UInt8.ofNat_toNat] at hb

end Ascii
