import Plo.Cmds.Prompt

/-!
Strings in the buffers of the prompt, and what the writes of the editor make of them.
-/
namespace Plo.Cmds

/-- The buffer starts with the text and a NUL behind it. -/
structure Text (buff : Nat → UInt8) (text : List UInt8) : Prop where
  noNul : 0 ∉ text
  short : text.length < SIZE_CMD_ARG_LINE
  bytes : slice buff 0 (text.length + 1) = text ++ [0]

namespace Text
variable {buff buff' : Nat → UInt8} {text : List UInt8}

theorem ofBuffer (h : Text buff text) :
    (CString.ofBuffer (slice buff 0 SIZE_CMD_ARG_LINE)).bytes = text := by
  obtain ⟨m, hm⟩ := Nat.exists_eq_add_of_le (Nat.succ_le_of_lt h.short)
  rw [show SIZE_CMD_ARG_LINE = text.length + 1 + m from hm, slice_add, h.bytes, List.append_assoc]
  exact ofBuffer_append h.noNul _

theorem slice_length (h : Text buff text) : slice buff 0 text.length = text := by
  have hbytes := h.bytes
  rw [slice_add] at hbytes
  exact (List.append_inj hbytes (length_slice _ _ _)).1

/-- A character behind the text; what the buffer holds behind it does not matter. -/
theorem append {c : UInt8} (hc : c ≠ 0) (hnoNul : 0 ∉ text)
    (hshort : text.length + 1 < SIZE_CMD_ARG_LINE) (hbytes : slice buff 0 text.length = text) :
    Text (overlay (overlay buff text.length [c]) (text.length + 1) [0]) (text ++ [c]) := by
  have hover : overlay (overlay buff text.length [c]) (text.length + 1) [0] =
      overlay buff (0 + text.length) [c, 0] := by
    rw [Nat.zero_add]
    exact (overlay_append buff text.length [c] [0]).symm
  refine ⟨?_, by simpa using hshort, ?_⟩
  · simpa [hnoNul] using hc.symm
  · have hslice := slice_overlay_append buff 0 text.length [c, 0]
    rw [hbytes] at hslice
    rw [hover, List.append_assoc, List.length_append, List.length_singleton]
    exact hslice

theorem erase (h : Text buff text) (hne : text ≠ []) :
    Text (overlay buff (text.length - 1) [0]) text.dropLast := by
  obtain ⟨init, c, rfl⟩ : ∃ init c, text = init ++ [c] :=
    ⟨_, _, (List.dropLast_append_getLast hne).symm⟩
  have hinit := h.slice_length
  rw [List.length_append, slice_add] at hinit
  have hslice := slice_overlay_append buff 0 init.length [0]
  rw [(List.append_inj hinit (length_slice _ _ _)).1, Nat.zero_add] at hslice
  rw [List.dropLast_concat, List.length_append, List.length_singleton, Nat.add_sub_cancel]
  refine ⟨fun h0 => h.noNul (List.mem_append_left _ h0), ?_, hslice⟩
  have hshort := h.short
  rw [List.length_append] at hshort
  omega

/-- The text of another buffer, copied with its NUL. -/
theorem copy (h : Text buff' text) (buff : Nat → UInt8) :
    Text (overlay buff 0 (slice buff' 0 (text.length + 1))) text := by
  refine ⟨h.noNul, h.short, ?_⟩
  have hslice := slice_overlay buff 0 (slice buff' 0 (text.length + 1))
  rw [length_slice] at hslice
  exact hslice.trans h.bytes

theorem clear (buff : Nat → UInt8) : Text (overlay buff 0 [0]) [] :=
  ⟨nofun, Nat.zero_lt_succ _, slice_overlay buff 0 [0]⟩

theorem head_ne_zero_iff (h : Text buff text) : buff 0 ≠ 0 ↔ text ≠ [] := by
  have hhead := congrArg List.head? h.bytes
  have hslice : (slice buff 0 (text.length + 1)).head? = some (buff 0) := by
    rw [Nat.add_comm, slice_add]
    rfl
  rw [hslice] at hhead
  cases text with
  | nil =>
      refine iff_of_false (not_not.mpr ?_) (not_not.mpr rfl)
      exact Option.some.inj hhead
  | cons c text =>
      refine iff_of_true ?_ (List.cons_ne_nil _ _)
      rw [Option.some.inj hhead]
      exact fun hzero => h.noNul (hzero ▸ .head _)

end Text

end Plo.Cmds
