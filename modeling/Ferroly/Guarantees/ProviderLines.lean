import Ferroly.Lemmas.GenaiLines

/-!
# Chunks of provider streams

Each chunk is decoded by itself, so a chunk that ends inside a character changes the text.
-/

namespace Ferroly.Genai

/-- For every stream of complete lines and every way it is cut into chunks, where no line is longer than the limit as it arrives: the
buffer yields the lines of the stream, and what is sent for the response is what those lines say, up to where the receiver is dropped,
if and only if no cut goes through a character or an ill-formed part. -/
theorem lines_independent_iff (chunks lines : List Bytes) (hstream : chunks.flatten = lines.flatMap (fun l => l ++ [byte '\n']))
    (hkeeps : keepsLines chunks = true) :
    ((LineBuffer.new.drainAll chunks).1 = linesOf chunks.flatten ∧
        ∀ (β : Type) (parse : Str → Option β) (transport : Str → β) (failure : Option Str) (takes : Option Nat),
          (pump parse transport failure chunks .new ⟨[], takes⟩).sent =
            firstOf takes ((linesOf chunks.flatten).filterMap parse ++ (failure.map transport).toList)) ↔
      cutsBetween chunks = true := by
  obtain ⟨hiff, hrest⟩ := drainAll_iff hstream hkeeps
  rw [← hiff]
  refine ⟨fun h => h.1, fun h => ⟨h, ?_⟩⟩
  intro β parse transport failure takes
  rw [pump_sent transport chunks failure .new ⟨[], takes⟩ hrest, h]
  rfl

/-- The two bytes of a character in one chunk. -/
theorem lines_independent_whole :
    (LineBuffer.new.drainAll [utf8 "é".toList, utf8 " \r\nb\n".toList]).1 = ["é".toList, "b".toList] := by
  have h := (lines_independent_iff [utf8 "é".toList, utf8 " \r\nb\n".toList] [utf8 "é \r".toList, utf8 "b".toList] (by decide)
    (by decide)).mpr (by decide)
  rw [h.1]
  decide

/-- The two bytes of a character in two chunks, and in one. -/
theorem cut_character_changes : ((LineBuffer.new.drainAll [[0xC3], [0xA9, 0x0A]]).1 = [[replacement, replacement]]) ∧
      (LineBuffer.new.drainAll [[0xC3, 0xA9, 0x0A]]).1 = ["é".toList] := by decide

end Ferroly.Genai
