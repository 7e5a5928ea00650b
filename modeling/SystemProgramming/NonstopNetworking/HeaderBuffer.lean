import SystemProgramming.NonstopNetworking.Survival

/-!
# The buffer of the request line

`parsing_header` asks for a single byte, and `read_request_header` is told that it may store
1024 bytes there.  After each byte the loop looks for the end of the string, and for the
character in front of it.
-/

namespace SystemProgramming.NonstopNetworking

variable {Φ : Type}

/-- The byte that `calloc(1, sizeof(char))` is asked for, and no other. -/
def Platform.requested (P : Platform Φ) : Platform Φ :=
  { P with usable := 1, usable_pos := Nat.one_pos }

/-- The string in the only byte is empty, or it does not end inside the buffer. -/
theorem lastChar_one (b : Byte) : lastChar 1 [b] = none := by
  by_cases hb : b = 0
  · simp [lastChar, cString, hb]
  · simp [lastChar, cString, Ne.symm hb]

/-- Whatever the first byte is, the look back leaves the buffer. -/
theorem readRequestHeader_one_cons {bytes : ℕ} (hbytes : 0 < bytes) (ending : Ending) (b : Byte)
    (input : List Byte) : readRequestHeader 1 bytes ending [] (b :: input) = .undefined := by
  have hroom : ¬ bytes ≤ ([] : List Byte).length := not_le.mpr hbytes
  have hfirst : ¬ 1 ≤ ([] : List Byte).length := by simp
  rw [readRequestHeader, if_neg hroom, List.nil_append, lastChar_one]
  simp only [if_neg hfirst]

/-- A failed `read` is followed by the same look back. -/
theorem readRequestHeader_one_nil {bytes : ℕ} (hbytes : 0 < bytes) (ending : Ending) :
    readRequestHeader 1 bytes ending [] [] =
      match ending with
      | .closed => .next ([], 0, [])
      | .reset => .undefined
      | .stalled => .hang := by
  have hroom : ¬ bytes ≤ ([] : List Byte).length := not_le.mpr hbytes
  have hempty : lastChar 1 [] = none := by simp [lastChar, cString]
  cases ending with
  | closed => rw [readRequestHeader, if_neg hroom, List.length_nil]
  | stalled => rw [readRequestHeader, if_neg hroom]
  | reset =>
      rw [readRequestHeader, if_neg hroom, hempty]
      simp

namespace Server

/-- Every access to the buffer and to the file name is inside its memory exactly if the client
sends no byte and does not reset the connection. -/
theorem parsingHeader_inside_iff (P : Platform Φ) (s : Server Φ) (fd : ℕ) (sock : Socket) :
    s.parsingHeader P.requested fd sock ≠ .undefined ↔
      sock.input = [] ∧ sock.ending ≠ .reset := by
  have hsize : 0 < BUFFER_SIZE := by decide
  cases hinput : sock.input with
  | cons b input =>
      have hread := readRequestHeader_one_cons hsize sock.ending b input
      have hparse : s.parsingHeader P.requested fd sock = .undefined := by
        rw [parsingHeader, Platform.requested, hinput, hread]
        rfl
      simp [hparse]
  | nil =>
      have hread := readRequestHeader_one_nil hsize sock.ending
      rw [parsingHeader, Platform.requested, hinput, hread]
      have hverb : verbOf [] = none := by decide
      have hshort : ¬ 0 = BUFFER_SIZE := by decide
      cases sock.ending with
      | closed =>
          simp only [Outcome.next_bind, if_neg hshort, hverb, Outcome.pure_eq]
          simp
      | reset => exact ⟨fun hne ↦ absurd rfl hne, fun h ↦ absurd rfl h.2⟩
      | stalled => exact ⟨fun _ ↦ ⟨rfl, by simp⟩, fun _ ↦ by rintro ⟨⟩⟩

/-- The client asks for the list. -/
theorem parsingHeader_list_outside :
    ¬ ∀ (P : Platform (Path → Option (List Byte))) (s : Server _) (fd : ℕ) (sock : Socket),
      s.parsingHeader P.requested fd sock ≠ .undefined := by
  intro h
  refine h smallPlatform (init fun _ ↦ none) 4
    ⟨ascii ['L', 'I', 'S', 'T', '\n'], .closed, .all, [], true⟩ ?_
  have hread : readRequestHeader 1 BUFFER_SIZE .closed [] (ascii ['L', 'I', 'S', 'T', '\n']) =
      .undefined := readRequestHeader_one_cons (by decide) _ _ _
  rw [parsingHeader, Platform.requested, hread]
  rfl

end Server

end SystemProgramming.NonstopNetworking
