import Phi.Output.Retained

/-!
# Captured output is exact

`captures_exactly` is about every run of a capture, with pushes, spill paths, flushes, timers and callbacks that
push or throw in any order. The consumer that folds the updates holds after each of them the view it was made from,
and after a flush the view of that moment: `Synced` is the invariant behind it, and says that the publisher's
baseline is what the consumer holds.

The text of the view is the truncated output (`Recorded`), if no chunk is lost on the way: the trims keep characters,
and the two halves of pushing a string are not interrupted.
-/

namespace Phi.Output

namespace CaptureRun

variable {measure : ShellOutputUpdate → ℕ} {r : CaptureRun} {c : OutputCapture}

theorem deliver_none {out : OutputCapture × Option ShellOutputUpdate} (h : out.2 = none) (k : Continuation)
    (next : CaptureRun → CaptureRun) : r.deliver out k next = next { r with capture := out.1 } := by
  rw [deliver, h]

theorem deliver_some {out : OutputCapture × Option ShellOutputUpdate} {update : ShellOutputUpdate}
    (h : out.2 = some update) (k : Continuation) (next : CaptureRun → CaptureRun) :
    r.deliver out k next =
      { r with capture := out.1, stack := k :: r.stack, updates := r.updates ++ [(out.1.snapshot, update)] } := by
  rw [deliver, h]

/-! ## The consumer -/

/-- The consumer holds what the publisher published last, which is the view of now unless something is to be
published. -/
structure Synced (r : CaptureRun) : Prop where
  disposed : r.capture.publisher.disposed = r.capture.disposed
  held : heldView r.updates = r.capture.publisher.published
  each : ∀ us view update, us ++ [(view, update)] <+: r.updates → heldView (us ++ [(view, update)]) = some view
  fresh : r.capture.disposed = true ∨ r.capture.publisher.dirty = true ∨
    r.capture.publisher.published = some r.capture.snapshot ∨
    r.updates = [] ∧ r.appended.flatten = [] ∧ r.capture.spillPath = none

theorem heldView_concat (us : List (ShellOutputView × ShellOutputUpdate)) (view : ShellOutputView)
    (update : ShellOutputUpdate) :
    heldView (us ++ [(view, update)]) = some (applyShellOutputUpdate (heldView us) update) := by
  rw [heldView, List.foldl_append]
  rfl

/-- A publication of the present view leaves the consumer with it. -/
theorem Synced.publish (h : r.Synced) {r' : CaptureRun} (hdisposed : r'.capture.publisher.disposed = r'.capture.disposed)
    (hupdates : r'.updates =
      r.updates ++ [(r'.capture.snapshot, updateFrom r.capture.publisher.published r'.capture.snapshot)])
    (hpublished : r'.capture.publisher.published = some r'.capture.snapshot) : r'.Synced := by
  have hheld : heldView r'.updates = some r'.capture.snapshot := by
    rw [hupdates, heldView_concat, h.held, applyShellOutputUpdate_updateFrom]
  constructor
  case disposed => exact hdisposed
  case held => rw [hheld, hpublished]
  case each =>
    intro us view update hprefix
    rw [hupdates, List.prefix_concat_iff] at hprefix
    rcases hprefix with heq | hprefix
    · rw [heq, ← hupdates, hheld]
      cases (List.append_inj' heq rfl).2
      rfl
    · exact h.each us view update hprefix
  case fresh => exact .inr (.inr (.inl hpublished))

/-- A change is published or noted, unless nothing is published any more. -/
theorem Synced.deliver_markDirty (h : r.Synced) (hpublisher : c.publisher = r.capture.publisher)
    (hdisposed : c.disposed = r.capture.disposed) (appended : List JsString) (now later : ℚ) (k : Continuation)
    {next : CaptureRun → CaptureRun} (hnext : ∀ r', r'.Synced → (next r').Synced) :
    ({ r with appended := appended }.deliver (c.markDirty measure now later) k next).Synced := by
  by_cases hover : r.capture.disposed = true
  · have hmark : c.markDirty measure now later = (c, none) := by
      rw [OutputCapture.markDirty, AdaptivePublisher.markDirty, hpublisher, h.disposed, hover, if_pos rfl]
      rw [← hpublisher]
    rw [hmark]
    apply hnext
    constructor
    case disposed => exact (congrArg AdaptivePublisher.disposed hpublisher).trans (h.disposed.trans hdisposed.symm)
    case held => exact h.held.trans (congrArg AdaptivePublisher.published hpublisher).symm
    case each => exact h.each
    case fresh => exact .inl (hdisposed.trans hover)
  · have hopen : c.publisher.disposed = false := by
      rw [hpublisher, h.disposed]
      simpa using hover
    have hopen' : c.disposed = false := by
      rw [hdisposed]
      simpa using hover
    rcases AdaptivePublisher.markDirty_cases (OutputCapture.publisherOptions measure) c.publisher now later c.snapshot hopen
      with ⟨hd, ⟨hnone, hpublished, hdirty⟩ | ⟨hsome, hpublished, hdirty⟩⟩
    · rw [deliver_none hnone]
      apply hnext
      constructor
      case disposed => exact hd.trans hopen'.symm
      case held => exact h.held.trans ((congrArg AdaptivePublisher.published hpublisher).symm.trans hpublished.symm)
      case each => exact h.each
      case fresh => exact .inr (.inl hdirty)
    · rw [deliver_some hsome]
      refine h.publish (hd.trans hopen'.symm) ?_ hpublished
      rw [← hpublisher]
      rfl

/-- So is a flush. -/
theorem Synced.deliver_flush (h : r.Synced) (hsnapshot : c.snapshot = r.capture.snapshot)
    (hspill : c.spillPath = r.capture.spillPath) (hdisposed : c.disposed = r.capture.disposed)
    (hpublished : c.publisher.published = r.capture.publisher.published)
    (hdirty : c.publisher.dirty = r.capture.publisher.dirty)
    (hdisposed' : c.publisher.disposed = r.capture.publisher.disposed) (force : Bool) (now : ℚ) (k : Continuation) :
    (r.deliver (c.flushPublisher measure force now) k id).Synced := by
  rcases AdaptivePublisher.flush_cases (OutputCapture.publisherOptions measure) c.publisher force now c.snapshot with
    ⟨hnone, hsame, hstill, hd, -⟩ | ⟨hopen, hd, hsome, hnow, hclean⟩
  · rw [deliver_none hnone]
    constructor
    case disposed => exact hd.trans (hdisposed'.trans (h.disposed.trans hdisposed.symm))
    case held => exact h.held.trans (hpublished.symm.trans hsame.symm)
    case each => exact h.each
    case fresh =>
      rcases h.fresh with hover | htodo | hfresh | ⟨hupdates, hempty, hpath⟩
      · exact .inl (hdisposed.trans hover)
      · exact .inr (.inl (hstill.trans (hdirty.trans htodo)))
      · refine .inr (.inr (.inl (hsame.trans (hpublished.trans (hfresh.trans ?_)))))
        exact congrArg some hsnapshot.symm
      · exact .inr (.inr (.inr ⟨hupdates, hempty, hspill.trans hpath⟩))
  · rw [deliver_some hsome]
    refine h.publish (hd.trans ?_) ?_ hnow
    · exact (hdisposed.trans (h.disposed.symm.trans (hdisposed'.symm.trans hopen))).symm
    · rw [← hpublished]
      rfl

theorem Synced.append (h : r.Synced) (text : JsString) (now later : ℚ) (k : Continuation)
    {next : CaptureRun → CaptureRun} (hnext : ∀ r', r'.Synced → (next r').Synced) :
    (r.append measure text now later k next).Synced := by
  rw [CaptureRun.append, OutputCapture.appendText]
  split
  · rename_i hnil
    rw [deliver_none rfl]
    apply hnext
    constructor
    case disposed => exact h.disposed
    case held => exact h.held
    case each => exact h.each
    case fresh =>
      refine h.fresh.imp_right (Or.imp_right (Or.imp_right fun ⟨hupdates, hempty, hpath⟩ => ⟨hupdates, ?_, hpath⟩))
      rw [List.flatten_append, hempty, hnil]
      rfl
  · exact h.deliver_markDirty (c := r.capture.receive text) rfl rfl _ now later k hnext

theorem Synced.flush (h : r.Synced) (now : ℚ) : (r.flush measure now).Synced := by
  rw [CaptureRun.flush]
  split
  · exact h
  · exact h.deliver_flush rfl rfl rfl rfl rfl rfl true now .done

theorem Synced.resume (h : r.Synced) (clock : ℕ → ℚ) (k : Continuation) : (r.resume measure clock k).Synced := by
  cases k with
  | done => exact h
  | append chunk => exact h.append chunk _ _ _ fun _ h' => h'
  | flush => exact h.flush _

/-- The decoder is not seen by the consumer. -/
theorem Synced.frame (h : r.Synced) (decoder : TextDecoder) (received : List Input) :
    Synced { r with capture := { r.capture with decoder := decoder }, received := received } :=
  ⟨h.disposed, h.held, h.each, h.fresh⟩

theorem Synced.push (h : r.Synced) (input : Input) (clock : ℕ → ℚ) : (r.push measure input clock).Synced := by
  rw [CaptureRun.push]
  split
  · exact h
  · cases input with
    | bytes chunk => exact (h.frame _ _).append _ _ _ _ fun _ h' => h'
    | text chunk => exact (h.frame _ _).append _ _ _ _ fun _ h' => h'.resume clock _
    | finish => exact (h.frame _ _).append _ _ _ _ fun _ h' => h'

theorem Synced.setSpillPath (h : r.Synced) (path : JsString) (clock : ℕ → ℚ) :
    (r.setSpillPath measure path clock).Synced := by
  rw [CaptureRun.setSpillPath]
  split
  · exact h
  · exact h.deliver_markDirty (c := { r.capture with spillPath := some path }) rfl rfl r.appended _ _ _
      fun _ h' => h'.resume clock _

/-- Every event keeps the consumer in step. -/
theorem Synced.step (h : r.Synced) {event : CaptureEvent} {r' : CaptureRun} (hstep : r.step measure event = some r') :
    r'.Synced := by
  cases event with
  | push input clock =>
    cases hstep
    exact h.push input clock
  | setSpillPath path clock =>
    cases hstep
    exact h.setSpillPath path clock
  | flush clock =>
    cases hstep
    exact h.flush _
  | timer clock =>
    simp only [CaptureRun.step] at hstep
    split at hstep
    · cases hstep
      exact h.deliver_flush (c := { r.capture with publisher := { r.capture.publisher with timer := false } })
        rfl rfl rfl rfl rfl rfl false _ .done
    · cases hstep
  | dispose =>
    cases hstep
    exact ⟨rfl, h.held, h.each, .inl rfl⟩
  | returns clock =>
    simp only [CaptureRun.step] at hstep
    split at hstep
    · cases hstep
    · rename_i k stack _
      cases hstep
      have hpopped : Synced { r with stack := stack } := ⟨h.disposed, h.held, h.each, h.fresh⟩
      exact hpopped.resume clock k
  | throws =>
    simp only [CaptureRun.step] at hstep
    split at hstep
    · cases hstep
    · cases hstep
      exact ⟨h.disposed, h.held, h.each, h.fresh⟩

end CaptureRun

/-! ## The output -/

namespace OutputCapture

/-- `#appendText` without the publisher. -/
def absorb (c : OutputCapture) (text : JsString) : OutputCapture := if text = [] then c else c.receive text

/-- The same buffer under the same limits. -/
structure SameContent (c c' : OutputCapture) : Prop where
  buffer : c.buffer = c'.buffer
  bufferBytes : c.bufferBytes = c'.bufferBytes
  options : c.options = c'.options
  retain : c.retain = c'.retain

theorem SameContent.receive {c c' : OutputCapture} (h : c.SameContent c') (text : JsString) :
    (c.receive text).SameContent (c'.receive text) := by
  have hover : c.overflows text = c'.overflows text := by
    rw [overflows, overflows, h.bufferBytes, h.options]
  constructor
  case buffer =>
    simp only [OutputCapture.receive, hover, h.buffer, h.options, h.retain]
  case bufferBytes =>
    simp only [OutputCapture.receive, hover, h.buffer, h.bufferBytes, h.options, h.retain]
  case options => exact h.options
  case retain => exact h.retain

/-- Appending a text does with the content what it does without a publisher. -/
theorem SameContent.appendText {c c' : OutputCapture} (h : c.SameContent c') (measure : ShellOutputUpdate → ℕ)
    (text : JsString) (now later : ℚ) : (c.appendText measure text now later).1.SameContent (c'.absorb text) := by
  rw [OutputCapture.appendText, absorb]
  split
  · exact h
  · have hreceive := h.receive text
    exact ⟨hreceive.buffer, hreceive.bufferBytes, hreceive.options, hreceive.retain⟩

theorem decoder_appendText (c : OutputCapture) (measure : ShellOutputUpdate → ℕ) (text : JsString) (now later : ℚ) :
    (c.appendText measure text now later).1.decoder = c.decoder := by
  rw [OutputCapture.appendText]
  split <;> rfl

end OutputCapture

namespace CaptureRun

variable {measure : ShellOutputUpdate → ℕ} {r : CaptureRun} {c : OutputCapture}

/-- What the calls in progress have yet to append. -/
def pendingText (stack : List Continuation) : JsString :=
  stack.flatMap fun
    | .append chunk => chunk
    | _ => []

/-- The decoder after these inputs. -/
def decoderAfter : TextDecoder → List Input → TextDecoder
  | d, [] => d
  | d, .bytes chunk :: inputs => decoderAfter (d.decodeStream chunk).2 inputs
  | d, .text _ :: inputs => decoderAfter d.decodeEnd.2 inputs
  | d, .finish :: inputs => decoderAfter d.decodeEnd.2 inputs

theorem decodeInputs_append (d : TextDecoder) (inputs inputs' : List Input) :
    decodeInputs d (inputs ++ inputs') = decodeInputs d inputs ++ decodeInputs (decoderAfter d inputs) inputs' := by
  induction inputs generalizing d with
  | nil => rfl
  | cons input inputs ih => cases input <;> simp [decodeInputs, decoderAfter, ih]

theorem decoderAfter_append (d : TextDecoder) (inputs inputs' : List Input) :
    decoderAfter d (inputs ++ inputs') = decoderAfter (decoderAfter d inputs) inputs' := by
  induction inputs generalizing d with
  | nil => rfl
  | cons input inputs ih => cases input <;> simp [decoderAfter, ih]

/-- An event gets between the two halves of pushing a string: something else is pushed, or the string is lost. -/
def Interrupts (r : CaptureRun) : CaptureEvent → Prop
  | .push (.bytes chunk) _ => pendingText r.stack ≠ [] ∧ chunk ≠ []
  | .push (.text chunk) _ => pendingText r.stack ≠ [] ∧ chunk ≠ []
  | .throws => ∃ chunk, r.stack.head? = some (.append chunk) ∧ chunk ≠ []
  | _ => False

/-- What was pushed has been decoded, and was appended or is about to be, to a capture that was `c` before. -/
structure Recorded (c : OutputCapture) (r : CaptureRun) : Prop where
  decoded : decodeInputs {} r.received = r.appended.flatten ++ pendingText r.stack
  decoder : decoderAfter {} r.received = r.capture.decoder
  pending : pendingText r.stack ≠ [] → r.capture.decoder = {}
  content : r.capture.SameContent (r.appended.foldl OutputCapture.absorb c)

theorem pendingText_cons (k : Continuation) (stack : List Continuation) :
    pendingText (k :: stack) = pendingText [k] ++ pendingText stack := by
  simp [pendingText]

/-- The end of a step of a call that has appended what it had to, but for what it goes on with. -/
theorem Recorded.deliver {out : OutputCapture × Option ShellOutputUpdate} {k : Continuation}
    {next : CaptureRun → CaptureRun}
    (hdecoded : decodeInputs {} r.received = r.appended.flatten ++ (pendingText [k] ++ pendingText r.stack))
    (hdecoder : decoderAfter {} r.received = out.1.decoder)
    (hpending : pendingText [k] ++ pendingText r.stack ≠ [] → out.1.decoder = {})
    (hcontent : out.1.SameContent (r.appended.foldl OutputCapture.absorb c))
    (hnext : Recorded c (next { r with capture := out.1 })) : (r.deliver out k next).Recorded c := by
  cases hout : out.2 with
  | none =>
    rw [deliver_none hout]
    exact hnext
  | some update =>
    rw [deliver_some hout]
    refine ⟨?_, hdecoder, ?_, hcontent⟩
    · rw [hdecoded]
      exact congrArg _ (pendingText_cons k r.stack).symm
    · intro hne
      exact hpending ((pendingText_cons k r.stack) ▸ hne)

/-- A text is appended, and something else may follow. -/
theorem Recorded.append {text : JsString} {k : Continuation} {next : CaptureRun → CaptureRun} (now later : ℚ)
    (hdecoded : decodeInputs {} r.received = r.appended.flatten ++ (text ++ (pendingText [k] ++ pendingText r.stack)))
    (hdecoder : decoderAfter {} r.received = r.capture.decoder)
    (hpending : pendingText [k] ++ pendingText r.stack ≠ [] → r.capture.decoder = {})
    (hcontent : r.capture.SameContent (r.appended.foldl OutputCapture.absorb c))
    (hnext : ∀ r' : CaptureRun, r'.received = r.received → r'.appended = r.appended ++ [text] → r'.stack = r.stack →
      r'.capture.decoder = r.capture.decoder →
      r'.capture.SameContent (r'.appended.foldl OutputCapture.absorb c) → Recorded c (next r')) :
    (r.append measure text now later k next).Recorded c := by
  have hsame : (r.capture.appendText measure text now later).1.SameContent
      ((r.appended ++ [text]).foldl OutputCapture.absorb c) := by
    rw [List.foldl_append]
    exact hcontent.appendText measure text now later
  have hstill := OutputCapture.decoder_appendText r.capture measure text now later
  refine Recorded.deliver ?_ (hdecoder.trans hstill.symm) (fun hne => hstill.trans (hpending hne)) hsame ?_
  · rw [hdecoded, List.flatten_append]
    simp
  · exact hnext _ rfl rfl rfl hstill hsame

/-- It is the last text. -/
theorem Recorded.append_last {text : JsString} (now later : ℚ)
    (hdecoded : decodeInputs {} r.received = r.appended.flatten ++ (text ++ pendingText r.stack))
    (hdecoder : decoderAfter {} r.received = r.capture.decoder)
    (hpending : pendingText r.stack ≠ [] → r.capture.decoder = {})
    (hcontent : r.capture.SameContent (r.appended.foldl OutputCapture.absorb c)) :
    (r.append measure text now later .done id).Recorded c := by
  refine Recorded.append now later hdecoded hdecoder hpending hcontent ?_
  intro r' hreceived happended hstack hstill hsame
  constructor
  case decoded =>
    change decodeInputs {} r'.received = r'.appended.flatten ++ pendingText r'.stack
    rw [hreceived, happended, hstack, hdecoded, List.flatten_append]
    simp
  case decoder =>
    change decoderAfter {} r'.received = r'.capture.decoder
    rw [hreceived, hdecoder, hstill]
  case pending =>
    change pendingText r'.stack ≠ [] → r'.capture.decoder = {}
    rw [hstack, hstill]
    exact hpending
  case content => exact hsame

theorem Recorded.flush (h : r.Recorded c) (now : ℚ) : (r.flush measure now).Recorded c := by
  rw [CaptureRun.flush]
  split
  · exact h
  · have hsame : r.capture.SameContent _ := h.content
    refine Recorded.deliver h.decoded h.decoder h.pending ?_ ⟨h.decoded, h.decoder, h.pending, ?_⟩
    · exact ⟨hsame.buffer, hsame.bufferBytes, hsame.options, hsame.retain⟩
    · exact ⟨hsame.buffer, hsame.bufferBytes, hsame.options, hsame.retain⟩

/-- A call goes on after a callback. -/
theorem Recorded.resume {k : Continuation} {stack : List Continuation} (h : r.Recorded c) (hstack : r.stack = k :: stack)
    (clock : ℕ → ℚ) : ({ r with stack := stack }.resume measure clock k).Recorded c := by
  have hdecoded := h.decoded
  have hpending := h.pending
  rw [hstack, pendingText_cons] at hdecoded hpending
  cases k with
  | done => exact ⟨hdecoded, h.decoder, hpending, h.content⟩
  | append chunk =>
    refine Recorded.append_last _ _ ?_ h.decoder ?_ h.content
    · rw [hdecoded]
      simp [pendingText]
    · intro hne
      exact hpending (List.append_ne_nil_of_right_ne_nil _ hne)
  | flush =>
    have hpopped : Recorded c { r with stack := stack } := ⟨hdecoded, h.decoder, hpending, h.content⟩
    exact hpopped.flush _

theorem Recorded.push (h : r.Recorded c) {input : Input} {clock : ℕ → ℚ} (hclean : ¬r.Interrupts (.push input clock)) :
    (r.push measure input clock).Recorded c := by
  have hdecoded : decodeInputs {} (r.received ++ [input]) =
      r.appended.flatten ++ (pendingText r.stack ++ decodeInputs r.capture.decoder [input]) := by
    rw [decodeInputs_append, h.decoded, h.decoder, List.append_assoc]
  have hdecoder : decoderAfter {} (r.received ++ [input]) = decoderAfter r.capture.decoder [input] := by
    rw [decoderAfter_append, h.decoder]
  have hsame := h.content
  rw [CaptureRun.push]
  split
  · exact h
  by_cases hnone : pendingText r.stack = []
  · rw [hnone, List.nil_append] at hdecoded
    cases input with
    | bytes chunk =>
      refine Recorded.append_last _ _ ?_ hdecoder (fun hne => absurd hnone hne)
        ⟨hsame.buffer, hsame.bufferBytes, hsame.options, hsame.retain⟩
      rw [hdecoded, hnone]
      rfl
    | text chunk =>
      refine Recorded.append _ _ ?_ hdecoder (fun _ => rfl)
        ⟨hsame.buffer, hsame.bufferBytes, hsame.options, hsame.retain⟩ ?_
      · rw [hdecoded, hnone]
        simp [decodeInputs, pendingText]
      · intro r' hreceived happended hstack hstill hsame'
        refine Recorded.append_last _ _ ?_ ?_ (fun _ => hstill) hsame'
        · rw [hreceived, happended, hstack, hdecoded, hnone, List.flatten_append]
          simp [decodeInputs]
        · rw [hreceived, hdecoder, hstill]
          rfl
    | finish =>
      refine Recorded.append_last _ _ ?_ hdecoder (fun hne => absurd hnone hne)
        ⟨hsame.buffer, hsame.bufferBytes, hsame.options, hsame.retain⟩
      rw [hdecoded, hnone]
      rfl
  · -- nothing comes between the halves of a string
    have hfresh := h.pending hnone
    rw [hfresh] at hdecoded hdecoder
    cases input with
    | bytes chunk =>
      have hnil : chunk = [] := by
        by_contra hne
        exact hclean ⟨hnone, hne⟩
      subst hnil
      refine Recorded.append_last _ _ ?_ (hdecoder.trans (by rw [hfresh]; rfl)) (fun _ => by rw [hfresh]; rfl)
        ⟨hsame.buffer, hsame.bufferBytes, hsame.options, hsame.retain⟩
      rw [hdecoded, hfresh, show decodeInputs {} [.bytes []] = [] from rfl, List.append_nil]
      rfl
    | text chunk =>
      have hnil : chunk = [] := by
        by_contra hne
        exact hclean ⟨hnone, hne⟩
      subst hnil
      rw [show decodeInputs {} [.text []] = [] from rfl, List.append_nil] at hdecoded
      refine Recorded.append _ _ ?_ hdecoder (fun _ => rfl)
        ⟨hsame.buffer, hsame.bufferBytes, hsame.options, hsame.retain⟩ ?_
      · rw [hdecoded, hfresh]
        rfl
      · intro r' hreceived happended hstack hstill hsame'
        refine Recorded.append_last _ _ ?_ ?_ (fun _ => hstill) hsame'
        · rw [hreceived, happended, hstack, hdecoded, hfresh, List.flatten_append]
          simp [TextDecoder.decodeEnd, Utf8.close, TextDecoder.stripBom]
        · rw [hreceived, hdecoder, hstill]
          rfl
    | finish =>
      refine Recorded.append_last _ _ ?_ hdecoder (fun _ => rfl)
        ⟨hsame.buffer, hsame.bufferBytes, hsame.options, hsame.retain⟩
      rw [hdecoded, hfresh, show decodeInputs {} [.finish] = [] from rfl, List.append_nil]
      rfl

theorem Recorded.setSpillPath (h : r.Recorded c) (path : JsString) (clock : ℕ → ℚ) :
    (r.setSpillPath measure path clock).Recorded c := by
  have hsame : r.capture.SameContent _ := h.content
  have hcontent : ∀ publisher, OutputCapture.SameContent
      { r.capture with spillPath := some path, publisher := publisher } (r.appended.foldl OutputCapture.absorb c) :=
    fun _ => ⟨hsame.buffer, hsame.bufferBytes, hsame.options, hsame.retain⟩
  rw [CaptureRun.setSpillPath]
  split
  · exact h
  · have hnoted : ∀ publisher, Recorded c
        { r with capture := { r.capture with spillPath := some path, publisher := publisher } } :=
      fun _ => ⟨h.decoded, h.decoder, h.pending, hcontent _⟩
    exact Recorded.deliver h.decoded h.decoder h.pending (hcontent _) ((hnoted _).flush _)

/-- Every event but an interruption keeps the record. -/
theorem Recorded.step (h : r.Recorded c) {event : CaptureEvent} (hclean : ¬r.Interrupts event) {r' : CaptureRun}
    (hstep : r.step measure event = some r') : r'.Recorded c := by
  have hsame := h.content
  cases event with
  | push input clock =>
    cases hstep
    exact h.push hclean
  | setSpillPath path clock =>
    cases hstep
    exact h.setSpillPath path clock
  | flush clock =>
    cases hstep
    exact h.flush _
  | timer clock =>
    simp only [CaptureRun.step] at hstep
    split at hstep
    · cases hstep
      refine Recorded.deliver h.decoded h.decoder h.pending ?_ ⟨h.decoded, h.decoder, h.pending, ?_⟩
      · exact ⟨hsame.buffer, hsame.bufferBytes, hsame.options, hsame.retain⟩
      · exact ⟨hsame.buffer, hsame.bufferBytes, hsame.options, hsame.retain⟩
    · cases hstep
  | dispose =>
    cases hstep
    exact ⟨h.decoded, h.decoder, h.pending, hsame.buffer, hsame.bufferBytes, hsame.options, hsame.retain⟩
  | returns clock =>
    simp only [CaptureRun.step] at hstep
    split at hstep
    · cases hstep
    · rename_i k stack hstack
      cases hstep
      exact h.resume hstack clock
  | throws =>
    simp only [CaptureRun.step] at hstep
    split at hstep
    · cases hstep
    · rename_i k stack hstack
      cases hstep
      -- what is dropped had nothing to append
      have hnil : pendingText [k] = [] := by
        cases k with
        | append chunk =>
          by_contra hne
          refine hclean ⟨chunk, by rw [hstack]; rfl, ?_⟩
          simpa [pendingText] using hne
        | done => rfl
        | flush => rfl
      have hdecoded := h.decoded
      have hpending := h.pending
      rw [hstack, pendingText_cons, hnil, List.nil_append] at hdecoded hpending
      exact ⟨hdecoded, h.decoder, hpending, h.content⟩

end CaptureRun

/-! ## Whole runs -/

/-- The state after these events, if they can happen. -/
def CaptureRun.run (measure : ShellOutputUpdate → ℕ) (r : CaptureRun) : List CaptureEvent → Option CaptureRun
  | [] => some r
  | event :: events => (r.step measure event).bind fun r' => r'.run measure events

/-- No event gets between the two halves of pushing a string. -/
def CaptureRun.Uninterrupted (measure : ShellOutputUpdate → ℕ) (r : CaptureRun) : List CaptureEvent → Prop
  | [] => True
  | event :: events => ¬r.Interrupts event ∧ ∀ r', r.step measure event = some r' → r'.Uninterrupted measure events

/-- Whenever the buffer is trimmed, the characters that are kept stay as they are. -/
def OutputCapture.KeepsCharacters (c : OutputCapture) : List JsString → Prop
  | [] => True
  | text :: texts => (text ≠ [] → c.TrimsCleanly text) ∧ (c.absorb text).KeepsCharacters texts

theorem foldl_absorb_frame (c : OutputCapture) (texts : List JsString) :
    (texts.foldl OutputCapture.absorb c).options = c.options ∧ (texts.foldl OutputCapture.absorb c).retain = c.retain := by
  induction texts generalizing c with
  | nil => exact ⟨rfl, rfl⟩
  | cons text texts ih =>
    have hframe : (c.absorb text).options = c.options ∧ (c.absorb text).retain = c.retain := by
      rw [OutputCapture.absorb]
      split <;> exact ⟨rfl, rfl⟩
    rw [List.foldl_cons, (ih _).1, (ih _).2]
    exact hframe

theorem covers_foldl_absorb {c : OutputCapture} {output : JsString} (h : c.Covers output) {texts : List JsString}
    (hclean : c.KeepsCharacters texts) : (texts.foldl OutputCapture.absorb c).Covers (output ++ texts.flatten) := by
  induction texts generalizing c output with
  | nil => simpa using h
  | cons text texts ih =>
    rw [List.foldl_cons, List.flatten_cons, ← List.append_assoc]
    refine ih ?_ hclean.2
    rw [OutputCapture.absorb]
    split
    · rename_i hnil
      rwa [hnil, List.append_nil]
    · rename_i hne
      exact h.receive (hclean.1 hne)

theorem CaptureRun.Synced.run {measure : ShellOutputUpdate → ℕ} {r r' : CaptureRun} {events : List CaptureEvent}
    (h : r.Synced) (hrun : r.run measure events = some r') : r'.Synced := by
  induction events generalizing r with
  | nil =>
    cases hrun
    exact h
  | cons event events ih =>
    rcases Option.bind_eq_some_iff.mp hrun with ⟨r₁, hstep, hrest⟩
    exact ih (h.step hstep) hrest

theorem CaptureRun.Recorded.run {measure : ShellOutputUpdate → ℕ} {c : OutputCapture} {r r' : CaptureRun}
    {events : List CaptureEvent} (h : r.Recorded c) (hclean : r.Uninterrupted measure events)
    (hrun : r.run measure events = some r') : r'.Recorded c := by
  induction events generalizing r with
  | nil =>
    cases hrun
    exact h
  | cons event events ih =>
    rcases Option.bind_eq_some_iff.mp hrun with ⟨r₁, hstep, hrest⟩
    exact ih (h.step hclean.1 hstep) (hclean.2 r₁ hstep) hrest

/-- After a flush nothing is left to publish. -/
theorem CaptureRun.Synced.flushed {measure : ShellOutputUpdate → ℕ} {r : CaptureRun} (h : r.Synced)
    (hopen : r.capture.disposed = false) (now : ℚ) :
    heldView (r.flush measure now).updates = some (r.flush measure now).capture.snapshot ∨
      (r.flush measure now).updates = [] ∧ (r.flush measure now).appended.flatten = [] ∧
        (r.flush measure now).capture.spillPath = none := by
  have hsynced : (r.flush measure now).Synced := h.flush now
  have hdirty : (r.flush measure now).capture.disposed = false ∧ (r.flush measure now).capture.publisher.dirty = false := by
    rw [CaptureRun.flush, if_neg (by simp [hopen])]
    rcases AdaptivePublisher.flush_cases (OutputCapture.publisherOptions measure) r.capture.publisher true now
      r.capture.snapshot with ⟨hnone, -, hstill, -, hforce⟩ | ⟨-, -, hsome, -, hclean⟩
    · rw [CaptureRun.deliver_none hnone]
      refine ⟨hopen, hstill.trans ?_⟩
      rcases hforce rfl with hdisposed | hdirty
      · rw [h.disposed, hopen] at hdisposed
        cases hdisposed
      · exact hdirty
    · rw [CaptureRun.deliver_some hsome]
      exact ⟨hopen, hclean⟩
  rw [hsynced.held]
  rcases hsynced.fresh with hdisposed | htodo | hfresh
  · rw [hdirty.1] at hdisposed
    cases hdisposed
  · rw [hdirty.2] at htodo
    cases htodo
  · exact hfresh

/-- In every run of a capture, the consumer holds after each update the view that it was made from, and after a flush
the view of that moment, unless nothing was there to show. The text of the view is the truncated output, if the trims
keep characters and no string was interrupted. -/
theorem captures_exactly (measure : ShellOutputUpdate → ℕ) (options : TruncationOptions) (retain : Retain)
    (hbytes : 16 ≤ options.maxBytes) (c : OutputCapture) (hc : OutputCapture.create options retain = .ok c)
    (events : List CaptureEvent) (r : CaptureRun) (hrun : CaptureRun.run measure { capture := c } events = some r) :
    (∀ us view update, us ++ [(view, update)] <+: r.updates → heldView (us ++ [(view, update)]) = some view) ∧
      (r.capture.disposed = false → ∀ clock r', r.step measure (.flush clock) = some r' →
        heldView r'.updates = some r'.capture.snapshot ∨
          r'.updates = [] ∧ r'.appended.flatten = [] ∧ r'.capture.spillPath = none) ∧
      (CaptureRun.Uninterrupted measure { capture := c } events → c.KeepsCharacters r.appended →
        CaptureRun.pendingText r.stack = [] →
        r.capture.snapshot.text = sanitizeShellOutput (retain.truncate (decodeInputs {} r.received) options).content) := by
  have hnew : c = { options, retain } := by
    rw [OutputCapture.create] at hc
    split at hc
    · cases hc
    · split at hc
      · cases hc
      · cases hc
        rfl
  have hsynced : CaptureRun.Synced { capture := c } := by
    rw [hnew]
    refine ⟨rfl, rfl, ?_, .inr (.inr (.inr ⟨rfl, rfl, rfl⟩))⟩
    intro us view update hprefix
    simp at hprefix
  have hrecorded : CaptureRun.Recorded c { capture := c } := by
    rw [hnew]
    exact ⟨rfl, rfl, fun _ => rfl, rfl, rfl, rfl, rfl⟩
  have hlast := hsynced.run hrun
  refine ⟨hlast.each, ?_, ?_⟩
  · intro hopen clock r' hflush
    cases hflush
    exact hlast.flushed hopen (clock 0)
  · intro hclean hkeeps hpending
    have hend := hrecorded.run hclean hrun
    have hcovers : c.Covers [] := by
      rw [hnew]
      cases retain with
      | head => exact ⟨[], [], [], rfl, rfl, .inl rfl⟩
      | tail => exact ⟨[], rfl, .inl rfl⟩
    have hcovered := covers_foldl_absorb hcovers hkeeps
    have hcontent := hend.content
    rcases foldl_absorb_frame c r.appended with ⟨hsame, hsame'⟩
    rw [hend.decoded, hpending, List.append_nil]
    have hretained := content_retained hcovered (by rw [hsame, hnew]; exact show 8 ≤ options.maxBytes by omega)
    change sanitizeShellOutput (r.capture.retain.truncate r.capture.buffer r.capture.options).content = _
    rw [hcontent.retain, hcontent.buffer, hcontent.options, hretained, hsame, hsame', hnew, List.nil_append]

/-- A word is shown as it was pushed. -/
theorem captures_exactly_word :
    ∃ r, CaptureRun.run (fun _ => 0) { capture := { options := { maxBytes := 16 }, retain := .tail } }
        [.push (.text [104, 105]) fun _ => 0] = some r ∧ r.capture.snapshot.text = [104, 105] := by
  refine ⟨_, rfl, ?_⟩
  refine ((captures_exactly (fun _ => 0) { maxBytes := 16 } .tail (by decide) _ rfl
    [.push (.text [104, 105]) fun _ => 0] _ rfl).2.2 ?_ ?_ ?_).trans ?_
  · exact ⟨fun hinterrupts => hinterrupts.1 rfl, fun _ _ => trivial⟩
  · have happended : (CaptureRun.push (fun _ => 0) { capture := { options := { maxBytes := 16 }, retain := .tail } }
        (.text [104, 105]) fun _ => 0).appended = [[], [104, 105]] := by decide +kernel
    rw [happended]
    exact ⟨fun hne => absurd rfl hne, fun _ hover => absurd hover (by decide), trivial⟩
  · decide +kernel
  · decide +kernel

/-- A pair of surrogates is cut between two strings while the buffer is trimmed, and comes apart: the capture shows two
replacement characters where the output has one character. -/
theorem cut_pair_comes_apart :
    (CaptureRun.run (fun _ => 0) { capture := { options := { maxBytes := 16 }, retain := .tail } }
        [.push (.text (List.replicate 62 120 ++ [0xD83D])) fun _ => 0, .returns fun _ => 0,
          .push (.text [0xDE00]) fun _ => 0]).map
        (fun r => (r.stack.length, r.capture.snapshot.text,
          sanitizeShellOutput (Retain.tail.truncate (decodeInputs {} r.received) { maxBytes := 16 }).content)) =
      some (0, List.replicate 10 120 ++ [0xFFFD, 0xFFFD], List.replicate 12 120 ++ [0xD83D, 0xDE00]) ∧
      (List.replicate 10 120 ++ [0xFFFD, 0xFFFD] : JsString) ≠ List.replicate 12 120 ++ [0xD83D, 0xDE00] := by
  decide +kernel

end Phi.Output
