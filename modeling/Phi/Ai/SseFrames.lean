import Phi.Ai.Sse

/-!
# Frames in chunks

What the readers of frames give depends on the text of a response only, if what is left of the buffer can be read
together with what arrives later (`FrameReader.Carries`). For the Codex reader that is so for every text, for the
pi-messages reader where no carriage return stands before a CR LF.
-/

namespace Phi.Ai

variable {F : NumberFormat} {E : Type}

/-! ## Cutting frames -/

/-- For these texts, what is left of the buffer is read together with what arrives later. -/
structure FrameReader.Carries (r : FrameReader E) (Good : JsString → Prop) : Prop where
  read : ∀ a b, Good (a ++ b) → readFrames r.parse (r.finish (a ++ b))
    = readOn (readFrames r.parse (pieces cutFrame (r.normalize a)).1)
      (readFrames r.parse (r.finish ((pieces cutFrame (r.normalize a)).2 ++ b)))
  good : ∀ a b, Good (a ++ b) → Good ((pieces cutFrame (r.normalize a)).2 ++ b)

/-- The chunks of a text are read as the text is. -/
theorem FrameReader.Carries.read_eq {r : FrameReader E} {Good : JsString → Prop} (h : r.Carries Good)
    (texts : List JsString) (buffer last : JsString) (hgood : Good (buffer ++ (texts.flatten ++ last))) :
    r.read buffer last texts = readFrames r.parse (r.finish (buffer ++ (texts.flatten ++ last))) := by
  induction texts generalizing buffer with
  | nil => rfl
  | cons text texts ih =>
    rw [List.flatten_cons, List.append_assoc, ← List.append_assoc buffer] at hgood ⊢
    rw [h.read _ _ hgood, FrameReader.read, ih _ (h.good _ _ hgood)]

/-! ## The Codex reader -/

/-- No carriage return stands before a CR LF. -/
def NoDoubledReturn (text : JsString) : Prop := ¬[13, 13, 10] <:+: text

/-- No CR LF is left. -/
def NoCrlf (text : JsString) : Prop := ¬[13, 10] <:+: text

theorem NoDoubledReturn.tail {u : UInt16} {text : JsString} (h : NoDoubledReturn (u :: text)) : NoDoubledReturn text :=
  fun hinside => h (hinside.trans (List.suffix_cons u text).isInfix)

theorem NoCrlf.tail {u : UInt16} {text : JsString} (h : NoCrlf (u :: text)) : NoCrlf text :=
  fun hinside => h (hinside.trans (List.suffix_cons u text).isInfix)

theorem NoDoubledReturn.left {a b : JsString} (h : NoDoubledReturn (a ++ b)) : NoDoubledReturn a :=
  fun hinside => h (hinside.trans (List.prefix_append a b).isInfix)

end Phi.Ai
