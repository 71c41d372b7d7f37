import AVBGraph.Framework.Run
import Mathlib.Tactic

namespace AVBGraph.EdgeReader

open Framework

abbrev Line := List Char

/-- The pieces of a text between its newlines, `cur` begun; an empty piece at the end is no line. -/
def linesFrom (cur : Line) : List Char → List Line
  | [] => if cur = [] then [] else [cur]
  | c :: cs => if c = '\n' then cur :: linesFrom [] cs else linesFrom (cur ++ [c]) cs

/-- The line sequence of a file. -/
def lines (text : List Char) : List Line := linesFrom [] text

/-- An open input file: the characters not read yet and the `eof` bit. -/
structure IfStream where
  text : List Char
  eof : Bool

/-- `std::getline`; `none` when the stream is false afterwards. -/
def getline (f : IfStream) : Option Line × IfStream :=
  if f.eof then (none, f)
  else
    match f.text.dropWhile (· ≠ '\n') with
    | _ :: rest => (some (f.text.takeWhile (· ≠ '\n')), ⟨rest, false⟩)
    | [] => (if f.text = [] then none else some f.text, ⟨[], true⟩)

namespace IfStream

/-- The lines the stream still yields. -/
def remaining (f : IfStream) : List Line := if f.eof then [] else lines f.text

variable {f : IfStream}

theorem remaining_of_eof (h : f.eof = true) : f.remaining = [] := by simp [remaining, h]

theorem linesFrom_span (cur : Line) (text : List Char) :
    linesFrom cur text =
      match text.dropWhile (· ≠ '\n') with
      | _ :: rest => (cur ++ text.takeWhile (· ≠ '\n')) :: lines rest
      | [] => if cur ++ text = [] then [] else [cur ++ text] := by
  induction text generalizing cur with
  | nil => simp [linesFrom]
  | cons c cs ih =>
    by_cases hc : c = '\n'
    · simp [linesFrom, hc, lines]
    · rw [linesFrom, if_neg hc, ih]
      simp [hc]

/-- A successful `getline` delivers the next line, a failed one finds none left. -/
theorem remaining_getline (f : IfStream) :
    f.remaining = (getline f).1.toList ++ (getline f).2.remaining ∧
      ((getline f).1 = none → (getline f).2.remaining = []) := by
  cases heof : f.eof with
  | true => simp [getline, heof, remaining]
  | false =>
    have hspan := linesFrom_span [] f.text
    simp only [remaining, heof, lines, getline, Bool.false_eq_true, if_false]
    rw [hspan]
    cases f.text.dropWhile (· ≠ '\n') with
    | cons c rest => simp [lines]
    | nil => by_cases hnil : f.text = [] <;> simp [hnil]

end IfStream

/-- The loop of `getline` calls, at most `n` of them successful. -/
def readLines : Nat → IfStream → List Line × IfStream
  | 0, f => ([], f)
  | n + 1, f =>
    match getline f with
    | (some line, f) => (line :: (readLines n f).1, (readLines n f).2)
    | (none, f) => ([], f)

theorem remaining_readLines (n : Nat) (f : IfStream) :
    f.remaining = (readLines n f).1 ++ (readLines n f).2.remaining ∧
      ((readLines n f).1.length < n → (readLines n f).2.remaining = []) := by
  induction n generalizing f with
  | zero => simp [readLines]
  | succ n ih =>
    obtain ⟨hline, hend⟩ := f.remaining_getline
    rw [readLines]
    generalize getline f = p at hline hend
    obtain ⟨line, g⟩ := p
    cases line with
    | none => exact ⟨hline, fun _ => hend rfl⟩
    | some line =>
      obtain ⟨hrest, hshort⟩ := ih g
      refine ⟨?_, fun hlt => hshort (by simpa using hlt)⟩
      rw [hline, hrest]
      rfl

structure EdgeChunk where
  num_ : Nat
  edges : List Line
  is_last : Bool
deriving DecidableEq

/-- Where `reader_thread` stands between its mutex sections. -/
inductive ReaderAt
  | loop        -- at the test of `reading_finished`
  | enter       -- about to lock the mutex and to test the wait condition
  | asleep      -- in `space_available.wait`
  | notifyOne
  | notifyAll
  | done
deriving DecidableEq

/-- Where a consumer looping on `get_next_chunk` stands. -/
inductive ConsumerAt
  | enter       -- about to lock the mutex and to test the wait condition
  | asleep      -- in `data_available.wait`
  | notify (chunk : EdgeChunk)
  | done        -- it has received `nullptr`
deriving DecidableEq

structure ConcurrentEdgeReader where
  file : IfStream
  buffer_queue : List EdgeChunk
  reading_finished : Bool
  EdgeChunkNum : Nat
  reader : ReaderAt
  consumer : ConsumerAt
  /-- The chunks `get_next_chunk` has returned. -/
  delivered : List EdgeChunk

def MAX_BUFFER_SIZE : Nat := 4

/-- One step of a thread, or a wake-up without a notification. -/
inductive Event
  | reader | consumer | wakeReader | wakeConsumer
deriving DecidableEq

namespace ConcurrentEdgeReader

def init (text : List Char) : ConcurrentEdgeReader :=
  ⟨⟨text, false⟩, [], false, 0, .loop, .enter, []⟩

/-- A notification of `data_available`. -/
def wakeConsumer (s : ConcurrentEdgeReader) : ConcurrentEdgeReader :=
  match s.consumer with
  | .asleep => { s with consumer := .enter }
  | _ => s

/-- A notification of `space_available`. -/
def wakeReader (s : ConcurrentEdgeReader) : ConcurrentEdgeReader :=
  match s.reader with
  | .asleep => { s with reader := .enter }
  | _ => s

/-- The mutex section after a successful wait: a chunk is read and queued. -/
def fill (chunk_size : Nat) (s : ConcurrentEdgeReader) : ConcurrentEdgeReader :=
  let (edges, file) := readLines chunk_size s.file
  let is_last := decide (edges.length < chunk_size) || file.eof
  let chunk : EdgeChunk := ⟨s.EdgeChunkNum, edges, is_last⟩
  let s := { s with
    file
    buffer_queue := s.buffer_queue ++ [chunk]
    EdgeChunkNum := s.EdgeChunkNum + 1 }
  if is_last then { s with reading_finished := true, reader := .notifyAll }
  else { s with reader := .notifyOne }

/-- The next step of `reader_thread`. -/
def readerStep (chunk_size : Nat) (s : ConcurrentEdgeReader) : Option ConcurrentEdgeReader :=
  match s.reader with
  | .loop => some { s with reader := if s.reading_finished then .notifyAll else .enter }
  | .enter =>
    if s.buffer_queue.length < MAX_BUFFER_SIZE ∨ s.reading_finished then
      if s.reading_finished then some { s with reader := .notifyAll } else some (s.fill chunk_size)
    else some { s with reader := .asleep }
  | .asleep => none
  | .notifyOne => some { s.wakeConsumer with reader := .loop }
  | .notifyAll => some { s.wakeConsumer with reader := .done }
  | .done => none

/-- The next step of the consumer: it calls `get_next_chunk` until it receives `nullptr`. -/
def consumerStep (s : ConcurrentEdgeReader) : Option ConcurrentEdgeReader :=
  match s.consumer with
  | .enter =>
    match s.buffer_queue with
    | chunk :: queue => some { s with buffer_queue := queue, consumer := .notify chunk }
    | [] =>
      if s.reading_finished then some { s with consumer := .done }
      else some { s with consumer := .asleep }
  | .asleep => none
  | .notify chunk =>
    some { s.wakeReader with consumer := .enter, delivered := s.delivered ++ [chunk] }
  | .done => none

def step (chunk_size : Nat) (s : ConcurrentEdgeReader) : Event → Option ConcurrentEdgeReader
  | .reader => s.readerStep chunk_size
  | .consumer => s.consumerStep
  | .wakeReader => if s.reader = .asleep then some s.wakeReader else none
  | .wakeConsumer =>
    match s.consumer with
    | .asleep => some s.wakeConsumer
    | _ => none

/-- The chunk popped by the consumer and not returned yet. -/
def inHand (s : ConcurrentEdgeReader) : List EdgeChunk :=
  match s.consumer with
  | .notify chunk => [chunk]
  | _ => []

def edgesOf (chunks : List EdgeChunk) : List Line := chunks.flatMap (·.edges)

/-- Nothing is lost on the way to the consumer, and what a sleeping thread waits for has not
happened yet or is about to be notified. -/
structure Inv (text : List Char) (s : ConcurrentEdgeReader) : Prop where
  content : edgesOf (s.delivered ++ s.inHand ++ s.buffer_queue) ++ s.file.remaining = lines text
  finished : s.reading_finished = true → s.file.remaining = []
  length_le : s.buffer_queue.length ≤ MAX_BUFFER_SIZE
  received : s.consumer = .done → s.reading_finished = true ∧ s.buffer_queue = []
  left : s.reader = .notifyAll ∨ s.reader = .done ↔ s.reading_finished = true
  reader_asleep : s.reader = .asleep →
    s.buffer_queue.length = MAX_BUFFER_SIZE ∨ s.inHand ≠ []
  consumer_asleep : s.consumer = .asleep →
    s.buffer_queue = [] ∧ s.reading_finished = false ∨ s.reader = .notifyOne ∨ s.reader = .notifyAll

variable {text : List Char} {chunk_size : Nat} {s t : ConcurrentEdgeReader}

theorem inv_init (text : List Char) : Inv text (init text) where
  content := by simp [init, inHand, edgesOf, IfStream.remaining]
  finished := nofun
  length_le := Nat.zero_le _
  received := nofun
  left := by simp [init]
  reader_asleep := nofun
  consumer_asleep := nofun

/-- A notified consumer tests its condition again; nothing else changes. -/
theorem wakeConsumer_spec (s : ConcurrentEdgeReader) :
    ∃ c, s.wakeConsumer = { s with consumer := c } ∧ c ≠ .asleep ∧
      (c = .done → s.consumer = .done) ∧ inHand { s with consumer := c } = s.inHand := by
  obtain ⟨_, _, _, _, _, c, _⟩ := s
  cases c with
  | asleep => exact ⟨.enter, rfl, nofun, nofun, rfl⟩
  | enter => exact ⟨.enter, rfl, nofun, nofun, rfl⟩
  | notify chunk => exact ⟨.notify chunk, rfl, nofun, nofun, rfl⟩
  | done => exact ⟨.done, rfl, nofun, fun _ => rfl, rfl⟩

theorem wakeReader_spec (s : ConcurrentEdgeReader) :
    ∃ r, s.wakeReader = { s with reader := r } ∧ r ≠ .asleep ∧ (r = s.reader ∨ r = .enter ∧
      s.reader = .asleep) := by
  obtain ⟨_, _, _, _, r, _, _⟩ := s
  cases r with
  | asleep => exact ⟨.enter, rfl, nofun, .inr ⟨rfl, rfl⟩⟩
  | loop | enter | notifyOne | notifyAll | done => exact ⟨_, rfl, nofun, .inl rfl⟩

/-- The section of the reader: what it takes from the file it puts into the queue. -/
theorem fill_spec (chunk_size : Nat) (s : ConcurrentEdgeReader) :
    ∃ chunk file r, s.fill chunk_size = { s with
        file, buffer_queue := s.buffer_queue ++ [chunk], EdgeChunkNum := s.EdgeChunkNum + 1,
        reading_finished := s.reading_finished || chunk.is_last, reader := r } ∧
      s.file.remaining = chunk.edges ++ file.remaining ∧
      (chunk.is_last = true → file.remaining = []) ∧
      r = if chunk.is_last then .notifyAll else .notifyOne := by
  obtain ⟨hsplit, hshort⟩ := remaining_readLines chunk_size s.file
  refine ⟨⟨s.EdgeChunkNum, (readLines chunk_size s.file).1,
    decide ((readLines chunk_size s.file).1.length < chunk_size) ||
      (readLines chunk_size s.file).2.eof⟩, (readLines chunk_size s.file).2, _, ?_, hsplit, ?_, rfl⟩
  · dsimp only [fill]
    generalize (decide ((readLines chunk_size s.file).1.length < chunk_size) ||
      (readLines chunk_size s.file).2.eof) = is_last
    cases is_last <;> simp
  · intro hlast
    rcases Bool.or_eq_true_iff.mp hlast with hlt | heof
    · exact hshort (of_decide_eq_true hlt)
    · exact IfStream.remaining_of_eof heof

theorem Inv.fill (h : Inv text s) (hroom : s.buffer_queue.length < MAX_BUFFER_SIZE)
    (hopen : s.reading_finished = false) : Inv text (s.fill chunk_size) := by
  obtain ⟨chunk, file, r, hfill, hsplit, hlast, hr⟩ := fill_spec chunk_size s
  rw [hfill]
  exact {
    content := by
      rw [← h.content, hsplit]
      simp [edgesOf, inHand]
    finished := by simpa [hopen] using hlast
    length_le := by simpa using hroom
    received := fun hdone => absurd (h.received hdone).1 (by simp [hopen])
    left := by cases hl : chunk.is_last <;> simp [hr, hl, hopen]
    reader_asleep := by cases hl : chunk.is_last <;> simp [hr, hl]
    consumer_asleep := fun _ => by cases hl : chunk.is_last <;> simp [hr, hl] }

theorem Inv.readerStep (h : Inv text s) (hstep : s.readerStep chunk_size = some t) : Inv text t := by
  cases hr : s.reader with
  | loop =>
    have hopen : s.reading_finished = false := by
      rw [← Bool.not_eq_true, ← h.left]
      simp [hr]
    obtain rfl : t = { s with reader := .enter } := by
      simpa [ConcurrentEdgeReader.readerStep, hr, hopen] using hstep.symm
    exact { h with
      left := by simp [hopen]
      reader_asleep := nofun
      consumer_asleep := fun hc => by simpa [hr] using h.consumer_asleep hc }
  | enter =>
    have hopen : s.reading_finished = false := by
      rw [← Bool.not_eq_true, ← h.left]
      simp [hr]
    by_cases hroom : s.buffer_queue.length < MAX_BUFFER_SIZE
    · obtain rfl : t = s.fill chunk_size := by
        simpa [ConcurrentEdgeReader.readerStep, hr, hopen, hroom] using hstep.symm
      exact h.fill hroom hopen
    · obtain rfl : t = { s with reader := .asleep } := by
        simpa [ConcurrentEdgeReader.readerStep, hr, hopen, hroom] using hstep.symm
      have hfull := h.length_le
      exact { h with
        left := by simp [hopen]
        reader_asleep := fun _ => .inl (by simp only; omega)
        consumer_asleep := fun hc => by simpa [hr] using h.consumer_asleep hc }
  | asleep => simp [ConcurrentEdgeReader.readerStep, hr] at hstep
  | notifyOne =>
    obtain ⟨c, hwake, hc, hdone, hhand⟩ := wakeConsumer_spec s
    simp only [ConcurrentEdgeReader.readerStep, hr, hwake, Option.some.injEq] at hstep
    subst hstep
    have hopen : s.reading_finished = false := by
      rw [← Bool.not_eq_true, ← h.left]
      simp [hr]
    exact { h with
      content := by
        rw [← h.content, ← hhand]
        rfl
      received := fun hc => h.received (hdone hc)
      left := by simp [hopen]
      reader_asleep := nofun
      consumer_asleep := fun hc' => absurd hc' hc }
  | notifyAll =>
    obtain ⟨c, hwake, hc, hdone, hhand⟩ := wakeConsumer_spec s
    simp only [ConcurrentEdgeReader.readerStep, hr, hwake, Option.some.injEq] at hstep
    subst hstep
    have hfin : s.reading_finished = true := h.left.mp (.inl hr)
    exact { h with
      content := by
        rw [← h.content, ← hhand]
        rfl
      received := fun hc => h.received (hdone hc)
      left := by simp [hfin]
      reader_asleep := nofun
      consumer_asleep := fun hc' => absurd hc' hc }
  | done => simp [ConcurrentEdgeReader.readerStep, hr] at hstep

theorem Inv.consumerStep (h : Inv text s) (hstep : s.consumerStep = some t) : Inv text t := by
  cases hc : s.consumer with
  | enter =>
    have hhand : s.inHand = [] := by simp [inHand, hc]
    have hcontent := h.content
    have hasleep := h.reader_asleep
    rw [hhand] at hcontent
    cases hq : s.buffer_queue with
    | cons chunk queue =>
      simp only [ConcurrentEdgeReader.consumerStep, hc, hq, Option.some.injEq] at hstep
      subst hstep
      have hlen := h.length_le
      rw [hq] at hcontent hlen
      exact { h with
        content := by simpa [inHand] using hcontent
        length_le := (Nat.le_succ _).trans hlen
        received := nofun
        reader_asleep := fun _ => .inr (by simp [inHand])
        consumer_asleep := nofun }
    | nil =>
      rw [hq, List.append_nil] at hcontent
      have hreader : s.reader ≠ .asleep := fun hr => by
        simpa [hq, hhand, MAX_BUFFER_SIZE] using hasleep hr
      cases hfin : s.reading_finished with
      | true =>
        obtain rfl : t = { s with consumer := .done } := by
          simpa [ConcurrentEdgeReader.consumerStep, hc, hq, hfin] using hstep.symm
        exact { h with
          content := by simpa [inHand, hq] using hcontent
          received := fun _ => ⟨hfin, hq⟩
          reader_asleep := fun hr => absurd hr hreader
          consumer_asleep := nofun }
      | false =>
        obtain rfl : t = { s with consumer := .asleep } := by
          simpa [ConcurrentEdgeReader.consumerStep, hc, hq, hfin] using hstep.symm
        exact { h with
          content := by simpa [inHand, hq] using hcontent
          received := nofun
          reader_asleep := fun hr => absurd hr hreader
          consumer_asleep := fun _ => .inl ⟨hq, hfin⟩ }
  | asleep => simp [ConcurrentEdgeReader.consumerStep, hc] at hstep
  | notify chunk =>
    obtain ⟨r, hwake, hr, hcases⟩ := wakeReader_spec s
    simp only [ConcurrentEdgeReader.consumerStep, hc, hwake, Option.some.injEq] at hstep
    subst hstep
    have hcontent := h.content
    have hleft := h.left
    exact { h with
      content := by simpa [inHand, hc] using hcontent
      received := nofun
      left := by
        rcases hcases with rfl | ⟨rfl, hasleep⟩
        · exact hleft
        · simpa [hasleep] using hleft
      reader_asleep := fun hr' => absurd hr' hr
      consumer_asleep := nofun }
  | done => simp [ConcurrentEdgeReader.consumerStep, hc] at hstep

theorem Inv.wakeReader (h : Inv text s) (hasleep : s.reader = .asleep) :
    Inv text s.wakeReader := by
  have hleft := h.left
  have hwake : s.wakeReader = { s with reader := .enter } := by
    simp [ConcurrentEdgeReader.wakeReader, hasleep]
  rw [hwake]
  exact { h with
    left := by simpa [hasleep] using hleft
    reader_asleep := nofun
    consumer_asleep := fun hc => by simpa [hasleep] using h.consumer_asleep hc }

theorem Inv.wakeConsumer (h : Inv text s) : Inv text s.wakeConsumer := by
  obtain ⟨c, hwake, hc, hdone, hhand⟩ := wakeConsumer_spec s
  rw [hwake]
  exact { h with
    content := by
      rw [← h.content, ← hhand]
    received := fun hc => h.received (hdone hc)
    reader_asleep := fun hr => by rw [hhand]; exact h.reader_asleep hr
    consumer_asleep := fun hc' => absurd hc' hc }

theorem Inv.step (h : Inv text s) {e : Event} (hstep : s.step chunk_size e = some t) :
    Inv text t := by
  cases e with
  | reader => exact h.readerStep hstep
  | consumer => exact h.consumerStep hstep
  | wakeReader =>
    simp only [ConcurrentEdgeReader.step] at hstep
    split at hstep
    · obtain rfl := Option.some.inj hstep
      exact h.wakeReader ‹_›
    · cases hstep
  | wakeConsumer =>
    simp only [ConcurrentEdgeReader.step] at hstep
    split at hstep
    · obtain rfl := Option.some.inj hstep
      exact h.wakeConsumer
    · cases hstep

/-- In every state that the two threads can reach: the chunks returned are a beginning of the file,
all of it once `nullptr` has been returned; the queue keeps its bound; a thread asleep in its wait
leaves the other one neither asleep nor gone. -/
theorem delivers_all {es : List Event} (hrun : exec (step chunk_size) (init text) es = some s) :
    edgesOf s.delivered <+: lines text ∧
      (s.consumer = .done → edgesOf s.delivered = lines text) ∧
      s.buffer_queue.length ≤ MAX_BUFFER_SIZE ∧
      ¬(s.reader = .asleep ∧ s.consumer = .asleep) ∧
      (s.reader = .asleep → s.consumer ≠ .done) ∧ (s.consumer = .asleep → s.reader ≠ .done) := by
  have hstep (s : ConcurrentEdgeReader) (e : Event) (t : ConcurrentEdgeReader) (hs : Inv text s)
      (_ : True) (hst : step chunk_size s e = some t) : Inv text t := hs.step hst
  have h : Inv text s := invariant_of_step hstep (inv_init text) (along_true _ _ _) hrun
  have hcontent := h.content
  refine ⟨?_, ?_, h.length_le, ?_, ?_, ?_⟩
  · exact ⟨edgesOf (s.inHand ++ s.buffer_queue) ++ s.file.remaining, by
      rw [← hcontent]
      simp [edgesOf]⟩
  · intro hdone
    obtain ⟨hfin, hq⟩ := h.received hdone
    have hhand : s.inHand = [] := by simp [inHand, hdone]
    simpa [hhand, hq, h.finished hfin] using hcontent
  · rintro ⟨hr, hc⟩
    have hhand : s.inHand = [] := by simp [inHand, hc]
    have hfull : s.buffer_queue.length = MAX_BUFFER_SIZE := by
      simpa [hhand] using h.reader_asleep hr
    rcases h.consumer_asleep hc with ⟨hq, -⟩ | hr' | hr'
    · simp [hq, MAX_BUFFER_SIZE] at hfull
    · simp [hr] at hr'
    · simp [hr] at hr'
  · intro hr hdone
    have := h.left.mpr (h.received hdone).1
    simp [hr] at this
  · intro hc hr
    have hfin := h.left.mp (.inr hr)
    rcases h.consumer_asleep hc with ⟨-, hopen⟩ | hr' | hr'
    · simp [hopen] at hfin
    · simp [hr] at hr'
    · simp [hr] at hr'

/-- Two lines in chunks of one, the second one without a newline; the consumer sleeps first. -/
theorem delivers_all_two :
    ∃ s, exec (step 1) (init ['a', '\n', 'b']) [.reader, .consumer, .reader, .reader, .reader,
        .reader, .consumer, .consumer, .consumer, .consumer, .consumer] = some s ∧
      edgesOf s.delivered = lines ['a', '\n', 'b'] := by
  obtain ⟨s, hrun, hdone⟩ : ∃ s, exec (step 1) (init ['a', '\n', 'b']) [.reader, .consumer, .reader,
      .reader, .reader, .reader, .consumer, .consumer, .consumer, .consumer, .consumer] = some s ∧
      s.consumer = .done := by
    apply exists_exec
    decide +kernel
  exact ⟨s, hrun, (delivers_all hrun).2.1 hdone⟩

end ConcurrentEdgeReader

end AVBGraph.EdgeReader
