import DistrApp.Server.Listing
import DistrApp.Server.Disconnect
import DistrApp.Client.Requests

/-!
# The listings on the wire

LIST_USERS and LIST_CONTENT between `listusers` or `listcontent` on one side
and the rest of `tratar_mensaje` on the other, from the reply code on.  The
acknowledgements keep two messages apart, but the count of LIST_USERS is not
acknowledged before the first line, and no file of LIST_CONTENT is.
-/

set_option autoImplicit false

namespace DistrApp.Client

open Text FileTree Streams Effects

/-! ## The client -/

def receiveUsers (reading : Reading) : Nat → Prog
  | 0 => .done
  | n + 1 => .recv 256 fun usuarioConectado =>
      if reading.decodes usuarioConectado then
        .send (encode "OK\x00")
          (if reading.parses usuarioConectado then receiveUsers reading n else .failed)
      else .failed

/-- What `listusers` does after its request. -/
def receiveListusers (reading : Reading) : Prog :=
  .recv 16 fun respuesta =>
    if reading.decodes respuesta then
      .send (encode "OK\x00") <| .recv 16 fun numeroDeConectados =>
        if reading.decodes numeroDeConectados then
          if respuesta.head? = some 48 then
            match reading.int numeroDeConectados with
            | none => .failed
            | some n => receiveUsers reading n.toNat
          else .done
        else .failed
    else .failed

def receiveFiles (reading : Reading) : Nat → Prog
  | 0 => .done
  | n + 1 => .recv 1024 fun archivo =>
      if reading.decodes archivo then receiveFiles reading n else .failed

/-- What `listcontent` does after its request. -/
def receiveListcontent (reading : Reading) : Prog :=
  .recv 1024 fun respuesta =>
    if reading.decodes respuesta then
      .send (encode "OK\x00") <| .recv 1024 fun numeroDeArchivos =>
        if reading.decodes numeroDeArchivos then
          if respuesta.head? = some 48 then
            match reading.int numeroDeArchivos with
            | none => .failed
            | some n => receiveFiles reading n.toNat
          else .done
        else .failed
    else .failed

/-! ## The two together -/

def receiveListing (reading : Reading) : Server.Listing → Prog
  | .users => receiveListusers reading
  | .content => receiveListcontent reading

/-- The exchange, once the server has read the request. -/
def listingLink (listing : Server.Listing) (reading : Reading) (env : Server.Surroundings)
    (t : FileTree) (reply : Server.Reply) : Link Prog Prog :=
  ⟨Side.start (receiveListing reading listing), Side.start (listing.program env t reply)⟩

/-- A message without the NULs at its end. -/
def unpadded (message : Bytes) : Bytes := message.rdropWhile (· = 0)

/-- The reads have returned the messages sent so far, one each; what is unread is
one more message at most. -/
def OneEach (x : Link Prog Prog) : Prop :=
  ∃ pending : List Bytes, x.far.put.map unpadded = (x.near.got ++ pending).map unpadded ∧
    pending.length ≤ 1 ∧ pending.flatten = x.near.unread

section Answering
variable {reading : Reading}

theorem sends_receiveUsers (n : Nat) (received : List Bytes) :
    (receiveUsers reading n).sends received = ackUsers reading n received := by
  induction n generalizing received with
  | zero => cases received <;> rfl
  | succ n ih =>
      cases received with
      | nil => rfl
      | cons usuarioConectado rest =>
          rw [receiveUsers, Prog.sends, ackUsers]
          split
          · rw [Prog.sends]
            split
            · rw [ih]
            · cases rest <;> rfl
          · cases rest <;> rfl

theorem sends_receiveListusers (received : List Bytes) :
    (receiveListusers reading).sends received = listusersAcks reading received := by
  cases received with
  | nil => rfl
  | cons respuesta later =>
      rw [receiveListusers, Prog.sends]
      unfold listusersAcks
      simp only
      by_cases decoded : reading.decodes respuesta = true
      · rw [if_pos decoded, if_pos decoded, Prog.sends]
        cases later with
        | nil => rfl
        | cons numeroDeConectados usuarios =>
            rw [Prog.sends]
            by_cases counted : reading.decodes numeroDeConectados = true
            · by_cases zero : respuesta.head? = some 48
              · simp only [counted, zero, if_true, decide_true, Bool.and_true]
                cases reading.int numeroDeConectados with
                | none => cases usuarios <;> rfl
                | some n => exact congrArg _ (sends_receiveUsers _ _)
              · simp only [counted, zero, if_true, if_false, decide_false, Bool.and_false,
                  Bool.false_eq_true]
                cases usuarios <;> rfl
            · simp only [counted, Bool.false_eq_true, if_false, Bool.false_and]
              cases usuarios <;> rfl
      · rw [if_neg decoded, if_neg decoded]
        cases later <;> rfl

theorem sends_receiveFiles (n : Nat) (received : List Bytes) :
    (receiveFiles reading n).sends received = [] := by
  induction n generalizing received with
  | zero => cases received <;> rfl
  | succ n ih =>
      cases received with
      | nil => rfl
      | cons archivo rest =>
          rw [receiveFiles, Prog.sends]
          split
          · exact ih rest
          · cases rest <;> rfl

theorem sends_receiveListcontent (received : List Bytes) :
    (receiveListcontent reading).sends received = listcontentAcks reading received := by
  cases received with
  | nil => rfl
  | cons respuesta later =>
      rw [receiveListcontent, Prog.sends, listcontentAcks]
      split
      · rw [Prog.sends]
        cases later with
        | nil => rfl
        | cons numeroDeArchivos archivos =>
            rw [Prog.sends]
            split
            · split
              · cases reading.int numeroDeArchivos with
                | none => cases archivos <;> rfl
                | some n => exact congrArg _ (sends_receiveFiles _ _)
              · cases archivos <;> rfl
            · cases archivos <;> rfl
      · cases later <;> rfl

theorem answers_receiveUsers (n k : Nat) : (receiveUsers reading n).Answers Server.endsLine k := by
  induction n generalizing k with
  | zero => exact Prog.Answers.done
  | succ n ih =>
      refine Prog.Answers.recv fun usuarioConectado => ?_
      split
      · refine Prog.Answers.send (by decide +kernel) ?_
        split
        · exact ih k
        · exact Prog.Answers.failed
      · exact Prog.Answers.failed

theorem answers_receiveFiles (n k : Nat) : (receiveFiles reading n).Answers Server.endsLine k := by
  induction n generalizing k with
  | zero => exact Prog.Answers.done
  | succ n ih =>
      refine Prog.Answers.recv fun archivo => ?_
      split
      · exact ih (k + 1)
      · exact Prog.Answers.failed

theorem answers_receiveListing (listing : Server.Listing) :
    (receiveListing reading listing).Answers Server.endsLine 0 := by
  have after : ∀ (limit : Nat) (loop : Nat → Prog),
      (∀ n k, (loop n).Answers Server.endsLine k) → (Prog.recv limit fun respuesta =>
        if reading.decodes respuesta then
          .send (encode "OK\x00") <| .recv limit fun numero =>
            if reading.decodes numero then
              if respuesta.head? = some 48 then
                match reading.int numero with
                | none => .failed
                | some n => loop n.toNat
              else .done
            else .failed
        else .failed).Answers Server.endsLine 0 := by
    intro limit loop each
    refine Prog.Answers.recv fun respuesta => ?_
    split
    · refine Prog.Answers.send (by decide +kernel) (Prog.Answers.recv fun numero => ?_)
      split
      · split
        · cases reading.int numero with
          | none => exact Prog.Answers.failed
          | some n => exact each _ _
        · exact Prog.Answers.done
      · exact Prog.Answers.failed
    · exact Prog.Answers.failed
  cases listing with
  | users => exact after 16 (receiveUsers reading) answers_receiveUsers
  | content => exact after 1024 (receiveFiles reading) answers_receiveFiles

end Answering

/-- Each `recv` returns one message, in every run in which a read takes all that
is there and no message is sent before the earlier ones are acknowledged or read. -/
theorem one_each (listing : Server.Listing) (reading : Reading) (env : Server.Surroundings)
    (t : FileTree) (reply : Server.Reply) {history : List Act} {x : Link Prog Prog}
    (run : Run (fun x act y => Step Prog.program Prog.program x act y ∧ Apart x act)
      (listingLink listing reading env t reply) history x) : OneEach x := by
  obtain ⟨pending, sent, few, unread⟩ := aligned_run (answers_receiveListing listing)
    (listing.waits env t reply) run
  exact ⟨pending, by rw [sent], few, unread⟩

/-! ## One run with and one run without -/

def readDigits (message : Bytes) : Option Int :=
  let digits := unpadded message
  if digits ≠ [] ∧ ∀ b ∈ digits, 48 ≤ b ∧ b ≤ 57 then
    some (digits.foldl (fun n b => 10 * n + (b.toNat - 48)) 0)
  else none

def plainReading : Reading where
  decodes := fun _ => true
  int := readDigits
  parses := fun line => line.countP (· = 32) = 3

def anaThere : FileTree := Server.treeAfter Server.firstStart Server.anaConnected

def keepUp : List Act :=
  [.far .sends, .near (.reads 2), .near .sends, .far (.reads 3), .far .sends, .near (.reads 2),
    .far .sends, .near (.reads 20), .near .sends, .far (.reads 3)]

theorem one_each_ana : ∃ x, Run (fun x act y => Step Prog.program Prog.program x act y ∧ Apart x act)
    (listingLink .users plainReading Server.answering anaThere ⟨ascii "0", some 1, none⟩)
      keepUp x ∧ x.near.got.length = 3 ∧ OneEach x := by
  have kept : (advanceApart (listingLink .users plainReading Server.answering anaThere
      ⟨ascii "0", some 1, none⟩) keepUp).map (fun x => x.near.got.length) = some 3 := by
    decide +kernel
  obtain ⟨x, run, three⟩ := Option.map_eq_some_iff.mp kept
  exact ⟨x, run_of_advanceApart run, three,
    one_each .users plainReading Server.answering anaThere _ (run_of_advanceApart run)⟩

def fallBehind : List Act :=
  [.far .sends, .near (.reads 2), .near .sends, .far (.reads 3), .far .sends, .far .sends,
    .near (.reads 16)]

/-- The line is sent before the client has read the count. -/
theorem count_overlaps_line :
    ¬ ∀ (listing : Server.Listing) (reading : Reading) (env : Server.Surroundings) (t : FileTree)
      (request : Server.Request) (reply : Server.Reply) (history : List Act) (x : Link Prog Prog),
      Server.Reachable t → listing.Asked request → Server.Served t request reply →
      Run (Step Prog.program Prog.program) (listingLink listing reading env t reply) history x →
      OneEach x := by
  intro always
  have overlap : (advanceAll Prog.program Prog.program (listingLink .users plainReading
      Server.answering anaThere ⟨ascii "0", some 1, none⟩) fallBehind).map
        (fun x => (x.far.put[1]?, x.near.got)) =
      some (some (ascii "1\x00"), [ascii "0\x00", ascii "1\x00ana 10.0.0.1 4"]) := by decide +kernel
  obtain ⟨x, run, seen⟩ := Option.map_eq_some_iff.mp overlap
  obtain ⟨sent, got⟩ := Prod.mk.inj seen
  have reached : Server.Reachable anaThere := Server.reachable_treeAfter (by decide) (by decide)
  have served : Server.Served anaThere (.listUsers (ascii "ana")) ⟨ascii "0", some 1, none⟩ :=
    ⟨⟨anaThere, [], []⟩, _, rfl, rfl⟩
  obtain ⟨pending, same, -⟩ := always .users plainReading Server.answering anaThere
    (.listUsers (ascii "ana")) _ _ x reached trivial served (run_of_advanceAll run)
  have second := congrArg (fun messages => messages[1]?) same
  simp only [got, List.getElem?_map, sent] at second
  have merged : unpadded (ascii "1\x00") = unpadded (ascii "1\x00ana 10.0.0.1 4") :=
    Option.some.inj second
  exact absurd merged (by decide +kernel)

end DistrApp.Client
