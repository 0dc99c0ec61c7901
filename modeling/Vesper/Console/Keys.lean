import Mathlib.Tactic

/-!
# Typed keys

Model of the escape-sequence state machine of `echo_uart` (`arch/riscv64/trap.rs`).  The
handler gets one byte per interrupt and keeps what it has seen of a sequence in `ESC_STATE`.
Over it stands the keyboard it is meant for: a key is a byte of its own, `ESC` and a byte
that does not open a sequence, or `ESC [` and a byte.  Fed byte by byte the handler is left
with the unfinished key and has printed what the finished ones show.
-/

set_option autoImplicit false

namespace Vesper.Console

/-! ## The handler -/

inductive EscState where
  | idle
  | escSeen
  | csiOpen
  deriving DecidableEq, Repr

def esc : BitVec 8 := 0x1b

def bracket : BitVec 8 := 0x5b

/-- `println!`: the text with a trailing CRLF. -/
def println (text : String) : List Char := (text ++ "\r\n").toList

/-- `echo_uart` from the byte on: the new `ESC_STATE` and what is printed. -/
def echoByte : EscState → BitVec 8 → EscState × List Char
  | .idle, c =>
      if c = 0x08 ∨ c = 0x7f then (.idle, "\x08 \x08".toList)
      else if c = 0x0d ∨ c = 0x0a then (.idle, println "")
      else if c = esc then (.escSeen, [])
      else (.idle, [Char.ofNat c.toNat])
  | .escSeen, c => if c = bracket then (.csiOpen, []) else (.idle, [])
  | .csiOpen, c =>
      (.idle,
        if c = 0x41 then println "up arrow!"
        else if c = 0x42 then println "down arrow!"
        else if c = 0x43 then println "right arrow!"
        else if c = 0x44 then println "left arrow!"
        else [])

def echoAll : EscState → List (BitVec 8) → EscState × List Char
  | state, [] => (state, [])
  | state, c :: rest =>
      let (state', text) := echoByte state c
      let (final, more) := echoAll state' rest
      (final, text ++ more)

theorem echoAll_append (state : EscState) (left right : List (BitVec 8)) :
    echoAll state (left ++ right) =
      ((echoAll (echoAll state left).1 right).1,
        (echoAll state left).2 ++ (echoAll (echoAll state left).1 right).2) := by
  induction left generalizing state with
  | nil => rfl
  | cons c rest ih => simp only [List.cons_append, echoAll, ih, List.append_assoc]

/-! ## The keyboard -/

/-- A key by the bytes it sends; the fields keep the three forms apart. -/
inductive Key where
  | plain (c : BitVec 8) (ordinary : c ≠ esc)
  | escaped (c : BitVec 8) (other : c ≠ bracket)
  | csi (c : BitVec 8)

def Key.typed : Key → List (BitVec 8)
  | .plain c _ => [c]
  | .escaped c _ => [esc, c]
  | .csi c => [esc, bracket, c]

/-- What a key shows: a backspace rubs out one place, either end of line starts a new one,
an arrow is named, the other sequences are swallowed. -/
def Key.shown : Key → List Char
  | .plain c _ =>
      if c ∈ [0x08, 0x7f] then ['\x08', ' ', '\x08']
      else if c ∈ [0x0d, 0x0a] then ['\r', '\n']
      else [Char.ofNat c.toNat]
  | .escaped _ _ => []
  | .csi c =>
      match [(0x41, "up"), (0x42, "down"), (0x43, "right"), (0x44, "left")].lookup c with
      | some direction => println (direction ++ " arrow!")
      | none => []

def EscState.started : EscState → List (BitVec 8)
  | .idle => []
  | .escSeen => [esc]
  | .csiOpen => [esc, bracket]

def typed (keys : List Key) (state : EscState) : List (BitVec 8) :=
  keys.flatMap Key.typed ++ state.started

/-- The keys finished by the bytes, and the state the last one is left in. -/
def keysFrom : EscState → List (BitVec 8) → List Key × EscState
  | state, [] => ([], state)
  | .idle, c :: rest =>
      if h : c = esc then keysFrom .escSeen rest
      else
        let (keys, final) := keysFrom .idle rest
        (.plain c h :: keys, final)
  | .escSeen, c :: rest =>
      if h : c = bracket then keysFrom .csiOpen rest
      else
        let (keys, final) := keysFrom .idle rest
        (.escaped c h :: keys, final)
  | .csiOpen, c :: rest =>
      let (keys, final) := keysFrom .idle rest
      (.csi c :: keys, final)

theorem typed_cons (key : Key) (keys : List Key) (state : EscState) :
    typed (key :: keys) state = key.typed ++ typed keys state := by
  simp only [typed, List.flatMap_cons, List.append_assoc]

theorem typed_keysFrom (state : EscState) (bytes : List (BitVec 8)) :
    typed (keysFrom state bytes).1 (keysFrom state bytes).2 = state.started ++ bytes := by
  induction bytes generalizing state with
  | nil => cases state <;> rfl
  | cons c rest ih =>
      cases state with
      | idle =>
          rw [keysFrom]
          split_ifs with isEsc
          · rw [ih, isEsc]
            rfl
          · rw [typed_cons, ih]
            rfl
      | escSeen =>
          rw [keysFrom]
          split_ifs with isBracket
          · rw [ih, isBracket]
            rfl
          · rw [typed_cons, ih]
            rfl
      | csiOpen =>
          rw [keysFrom, typed_cons, ih]
          rfl

theorem keysFrom_typed (keys : List Key) (state : EscState) :
    keysFrom .idle (typed keys state) = (keys, state) := by
  induction keys with
  | nil => cases state <;> rfl
  | cons key rest ih =>
      rw [typed_cons]
      cases key with
      | plain c ordinary =>
          rw [Key.typed, List.singleton_append, keysFrom, dif_neg ordinary, ih]
      | escaped c other =>
          rw [Key.typed, List.cons_append, keysFrom, dif_pos rfl, List.singleton_append,
            keysFrom, dif_neg other, ih]
      | csi c =>
          rw [Key.typed, List.cons_append, keysFrom, dif_pos rfl, List.cons_append, keysFrom,
            dif_pos rfl, List.singleton_append, keysFrom, ih]

theorem echoByte_esc : echoByte .idle esc = (.escSeen, []) := rfl

theorem echoByte_plain {c : BitVec 8} (ordinary : c ≠ esc) :
    echoByte .idle c = (.idle, (Key.plain c ordinary).shown) := by
  simp only [echoByte, Key.shown, List.mem_cons, List.not_mem_nil, or_false, if_neg ordinary]
  split_ifs
  · rfl
  · rfl
  · rfl

theorem echoByte_csi (c : BitVec 8) : echoByte .csiOpen c = (.idle, (Key.csi c).shown) := by
  revert c
  decide +kernel

theorem echoAll_eq (state : EscState) (bytes : List (BitVec 8)) :
    echoAll state bytes =
      ((keysFrom state bytes).2, (keysFrom state bytes).1.flatMap Key.shown) := by
  induction bytes generalizing state with
  | nil => rfl
  | cons c rest ih =>
      cases state with
      | idle =>
          rw [keysFrom, echoAll]
          split_ifs with isEsc
          · rw [isEsc, echoByte_esc]
            exact ih .escSeen
          · rw [echoByte_plain isEsc]
            dsimp only
            rw [ih]
            rfl
      | escSeen =>
          rw [keysFrom, echoAll, echoByte]
          split_ifs with isBracket
          · exact ih .csiOpen
          · exact ih .idle
      | csiOpen =>
          rw [keysFrom, echoAll, echoByte_csi]
          dsimp only
          rw [ih]
          rfl

/-- Every byte stream is, in exactly one way, a sequence of keys and the start of one more.
The handler, fed one byte per interrupt, has printed what the keys show and is left in the
state of the key that was started. -/
theorem echo_decodes_keys (bytes : List (BitVec 8)) :
    ∃ keys state, bytes = typed keys state ∧
      echoAll .idle bytes = (state, keys.flatMap Key.shown) ∧
      ∀ keys' state', bytes = typed keys' state' → keys' = keys ∧ state' = state := by
  refine ⟨(keysFrom .idle bytes).1, (keysFrom .idle bytes).2, (typed_keysFrom .idle bytes).symm,
    echoAll_eq .idle bytes, ?_⟩
  intro keys' state' same
  rw [same, keysFrom_typed]
  exact ⟨rfl, rfl⟩

end Vesper.Console
