import Nachos.Model.Console

/-! # Characters from the keyboard

The buffer is empty if it holds `EOF`, so that a character `EOF` in it is overwritten by the
next one. -/

namespace Nachos.Reader

open Library

variable {input : List Byte} {r : Reader}

/-! ## Without `EOF` -/

/-- The characters that have been read are those that were returned and the one in the buffer,
in this order. -/
structure Kept (input : List Byte) (r : Reader) : Prop where
  isPrefix : r.returned <+: input
  buffered : ∃ buffered, r.returned ++ buffered ++ r.console.keyboard = input ∧
    (buffered = [] ∨ buffered = [r.console.incoming])

/-- The buffer is full exactly while a character has been announced and not fetched. -/
inductive Buffered (input : List Byte) (r : Reader) : Prop where
  | empty (havail : r.readAvail = 0) (hout : r.inside = false)
      (hincoming : r.console.incoming = EOF) (hinput : r.returned ++ r.console.keyboard = input)
  | full (havail : r.readAvail + r.inside.toNat = 1)
      (hinput : r.returned ++ r.console.incoming :: r.console.keyboard = input)

theorem Buffered.kept (h : Buffered input r) : Kept input r := by
  cases h with
  | empty _ _ _ hinput =>
      exact ⟨⟨_, hinput⟩, [], by rw [List.append_nil, hinput], .inl rfl⟩
  | full _ hinput =>
      exact ⟨⟨_, hinput⟩, [r.console.incoming], by
        rw [List.append_assoc, List.singleton_append, hinput], .inr rfl⟩

theorem mem_dropLast {a b : Byte} {l l' : List Byte} : a ∈ (l ++ a :: b :: l').dropLast := by
  rw [List.dropLast_append_of_ne_nil (by simp), List.dropLast_cons_of_ne_nil (by simp)]
  simp

theorem Buffered.step (hinput : EOF ∉ input.dropLast) {e : Event} {r' : Reader}
    (hb : Buffered input r) (hstep : Step r e r') : Buffered input r' := by
  cases hstep with
  | @poll polled c called h =>
      rw [Console.checkCharAvail] at h
      split at h
      · cases h
        exact hb
      · rename_i hidle
        split at h
        · cases h
        · rename_i ch rest hkeyboard
          cases h
          have hincoming : r.console.incoming = EOF := by
            by_contra hne
            exact hidle (.inl hne)
          cases hb with
          | empty havail hout _ hall =>
              refine .full ?_ ?_
              · simp [havail, hout]
              · rw [hkeyboard] at hall
                exact hall
          | full _ hall =>
              -- the buffered character is `EOF`, and it is not the last one
              rw [hincoming, hkeyboard] at hall
              exact absurd mem_dropLast (hall ▸ hinput)
  | @wait n hout h =>
      cases hb with
      | empty havail _ _ _ =>
          rw [h] at havail
          cases havail
      | full havail hall =>
          refine .full ?_ hall
          rw [h, hout] at havail
          simpa using havail
  | get h =>
      cases hb with
      | empty _ hout _ _ =>
          rw [h] at hout
          cases hout
      | full havail hall =>
          refine .empty ?_ rfl rfl ?_
          · rw [h] at havail
            simpa using havail
          · simpa [Console.getChar] using hall
  | @put ch c h =>
      obtain ⟨-, -, h⟩ := bind_eq_ok.mp h
      cases h
      cases hb with
      | empty havail hout hincoming hall => exact .empty havail hout hincoming hall
      | full havail hall => exact .full havail hall
  | written h =>
      cases hb with
      | empty havail hout hincoming hall => exact .empty havail hout hincoming hall
      | full havail hall => exact .full havail hall

theorem Reachable.buffered (hinput : EOF ∉ input.dropLast) (h : (system input).Reachable r) :
    Buffered input r := by
  refine h.invariant ?_ fun t e _ u ht hstep => ht.step hinput hstep
  rintro _ rfl
  exact .empty rfl rfl rfl rfl

/-! ## With `EOF` -/

/-- The reader has fetched the characters `front`, each before the next one arrived. -/
def fetched (front rest : List Byte) : Reader := ⟨⟨EOF, false, rest, []⟩, 0, false, front⟩

/-- The next character arrives. -/
theorem Reachable.arrive {c : Console} {n : ℕ} {inside : Bool} {returned rest : List Byte}
    {ch : Byte} (h : (system input).Reachable ⟨c, n, inside, returned⟩)
    (hincoming : c.incoming = EOF) (hkeyboard : c.keyboard = ch :: rest) :
    (system input).Reachable ⟨{ c with incoming := ch, keyboard := rest }, n + 1, inside, returned⟩ := by
  have hcheck : c.checkCharAvail true =
      .ok ({ c with incoming := ch, keyboard := rest }, true) := by
    rw [Console.checkCharAvail, if_neg (by simp [hincoming])]
    simp only [hkeyboard]
  exact h.step (r := ()) (Step.poll (r := ⟨c, n, inside, returned⟩) hcheck)

/-- An announced character is fetched. -/
theorem Reachable.fetch {c : Console} {n : ℕ} {returned : List Byte}
    (h : (system input).Reachable ⟨c, n + 1, false, returned⟩) :
    (system input).Reachable ⟨{ c with incoming := EOF }, n, false, returned ++ [c.incoming]⟩ := by
  have hwait : (system input).Reachable ⟨c, n, true, returned⟩ :=
    h.step (r := ()) (Step.wait (r := ⟨c, n + 1, false, returned⟩) rfl rfl)
  exact hwait.step (r := ()) (Step.get (r := ⟨c, n, true, returned⟩) rfl)

theorem reachable_fetched (front rest : List Byte) :
    (system (front ++ rest)).Reachable (fetched front rest) := by
  induction front using List.reverseRecOn generalizing rest with
  | nil => exact .of_init rfl
  | append_singleton front ch ih =>
      have h := ih (ch :: rest)
      rw [List.append_cons] at h
      exact Reachable.fetch (Reachable.arrive h rfl rfl)

/-- If `EOF` is followed by another character, both can arrive before the first is fetched. -/
theorem exists_not_kept (h : EOF ∈ input.dropLast) :
    ∃ r, (system input).Reachable r ∧ ¬ Kept input r := by
  obtain ⟨front, rest, hsplit⟩ := List.append_of_mem h
  obtain ⟨b, rest', rfl⟩ : ∃ b rest', input = front ++ EOF :: b :: rest' := by
    have hne : input ≠ [] := by
      rintro rfl
      cases h
    have hlast := List.dropLast_append_getLast hne
    rw [hsplit, List.append_assoc, List.cons_append] at hlast
    obtain ⟨b, rest', hrest⟩ := List.exists_cons_of_ne_nil
      (show rest ++ [input.getLast hne] ≠ [] by simp)
    rw [hrest] at hlast
    exact ⟨b, rest', hlast.symm⟩
  refine ⟨_, Reachable.arrive (Reachable.arrive (reachable_fetched front _) rfl rfl) rfl rfl, ?_⟩
  rintro ⟨-, buffered, hall, hbuffered⟩
  have hlength := congrArg List.length hall
  simp only [List.length_append, List.length_cons] at hlength
  rcases hbuffered with rfl | rfl <;> simp at hlength <;> omega

/-! ## All runs -/

/-- No character is lost, duplicated or overwritten, whatever the order of polls and fetches,
exactly if none but the last character is `EOF`. -/
theorem characters_kept_iff (input : List Byte) :
    (∀ r, (system input).Reachable r → Kept input r) ↔ EOF ∉ input.dropLast := by
  constructor
  · intro h hmem
    obtain ⟨r, hr, hlost⟩ := exists_not_kept hmem
    exact hlost (h r hr)
  · intro hinput r hr
    exact (Reachable.buffered hinput hr).kept

/-- Of the characters `EOF` and `a` only the second one is returned. -/
theorem eof_overwritten :
    ∃ r, (system [EOF, 97]).Reachable r ∧ r.returned = [97] ∧ ¬ r.returned <+: [EOF, 97] := by
  have h := Reachable.fetch (Reachable.arrive (Reachable.arrive
    (reachable_fetched [] [EOF, 97]) rfl rfl) rfl rfl)
  exact ⟨_, h, rfl, by decide⟩

end Nachos.Reader

namespace Nachos.ConsoleTest

open Library

variable {input : List Byte} {t : ConsoleTest}

/-- What is on the display and the character that is about to be written are what `GetChar` has
returned. -/
structure Echoes (input : List Byte) (t : ConsoleTest) : Prop where
  reader : (Reader.system input).Reachable t.reader
  display : ∀ ch, t.phase = .writing ch → t.reader.returned = t.reader.console.display ++ [ch]
  settled : (∀ ch, t.phase ≠ .writing ch) → t.reader.returned = t.reader.console.display

theorem Echoes.step {e : Reader.Event} {t' : ConsoleTest} (ht : Echoes input t)
    (hstep : Step t e t') : Echoes input t' := by
  cases hstep with
  | poll h =>
      have hreader := ht.reader.step (r := ()) h
      obtain ⟨_, hdisplay, hsettled⟩ := ht
      cases h with
      | @poll polled c called h =>
          have hsame : c.display = t.reader.console.display := by
            rw [Console.checkCharAvail] at h
            split at h
            · cases h
              rfl
            · split at h <;> cases h
              rfl
          exact ⟨hreader, by rwa [hsame], by rwa [hsame]⟩
  | wait hphase h =>
      have hreader := ht.reader.step (r := ()) h
      cases h
      exact ⟨hreader, ht.display, ht.settled⟩
  | get hphase h =>
      have hreader := ht.reader.step (r := ()) h
      have hsettled := ht.settled (by rw [hphase]; rintro ch ⟨⟩)
      cases h
      refine ⟨hreader, ?_, fun hnot => absurd rfl (hnot _)⟩
      rintro ch ⟨⟩
      dsimp only
      rw [hsettled]
      rfl
  | @put ch r hphase h =>
      refine ⟨ht.reader.step (r := ()) h, by rintro ch' ⟨⟩, fun _ => ?_⟩
      have hdisplay := ht.display ch hphase
      cases h with
      | @put _ c h =>
          obtain ⟨-, -, h⟩ := bind_eq_ok.mp h
          cases h
          exact hdisplay
  | written h =>
      have hreader := ht.reader.step (r := ()) h
      cases h
      exact ⟨hreader, ht.display, ht.settled⟩
  | @next ch n hphase h =>
      have hsettled := ht.settled (by rw [hphase]; rintro ch ⟨⟩)
      refine ⟨ht.reader, fun ch' hch => ?_, fun _ => hsettled⟩
      dsimp only at hch
      split at hch <;> cases hch

/-- `ConsoleTest` is such a reader, and what it writes is what was typed. -/
theorem display_isPrefix (hinput : EOF ∉ input.dropLast) (h : (system input).Reachable t) :
    t.reader.console.display <+: input := by
  have ht : Echoes input t := by
    refine h.invariant ?_ fun u e _ v hu hstep => hu.step hstep
    rintro _ rfl
    exact ⟨.of_init rfl, by rintro ch ⟨⟩, fun _ => rfl⟩
  have hreturned := (Reader.Reachable.buffered hinput ht.reader).kept.isPrefix
  refine List.IsPrefix.trans ?_ hreturned
  cases hphase : t.phase with
  | writing ch => exact ⟨[ch], (ht.display ch hphase).symm⟩
  | _ => rw [ht.settled (by rw [hphase]; rintro ch ⟨⟩)]

end Nachos.ConsoleTest
