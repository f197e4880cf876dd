import Windgent.Ragel.Runs
import Windgent.Http.Chunks
import Windgent.Http.Http11

namespace Windgent.Http.HttpClient

open Ragel Scanner MachineInt
open Http11 (xdigit ascii space oneOf)

abbrev Rule := Exp ResponseAction

def lit (s : String) : Rule := .text (bytes s)

def nocase (s : String) : Rule := .cat ((bytes s).map fun c => .chars fun d => tolower d = tolower c)

def any : Rule := .chars fun _ => true

def crlf : Rule := .alt (lit "\r\n") (lit "\n")

def ctl (c : UInt8) : Bool := c ≤ 31 || c = 127

def tspecials : UInt8 → Bool := oneOf "()<>@,;:\\\"/[]?=\x7b\x7d \t"

def token (c : UInt8) : Bool := ascii c && !(ctl c || tspecials c)

/-- `any -- CRLF` is any byte but the line feed. -/
def reasonPhrase : Rule := .leaving .reasonPhrase (.entering .mark (.plus (.chars (· ≠ 10))))

def statusCode : Rule := .leaving .statusCode (.entering .mark (.plus (.chars Http11.digit)))

def httpNumber : Rule := .cat [.plus (.chars Http11.digit), lit ".", .plus (.chars Http11.digit)]

def httpVersion : Rule := .leaving .httpVersion (.entering .mark (.seq (lit "HTTP/") httpNumber))

def statusLine : Rule :=
  .entryGuarded 0 (.cat [httpVersion, lit " ", statusCode, lit " ", reasonPhrase]) crlf

def fieldName : Rule := .leaving .writeField (.entering .startField (.plus (.chars token)))

def fieldValue : Rule := .leaving .writeValue (.entering .startValue (.star any))

def fields : Rule := .entryGuarded 1 (.cat [fieldName, lit ":", .star (.chars space), fieldValue]) crlf

def contentLength : Rule :=
  .seq (.cat [.leaving .writeField (.entering .startField (nocase "Content-Length")), lit ":", .star (.chars space),
    .leaving .writeValue (.leaving .writeContentLen (.entering .startValue (.plus (.chars Http11.digit))))]) crlf

def connClose : Rule :=
  .seq (.cat [nocase "Connection", lit ":", .star (.chars space), nocase "close"])
    (.leaving .writeConnectionClose crlf)

def transferEncodingChunked : Rule :=
  .seq (.cat [.leaving .writeField (.entering .startField (nocase "Transfer-Encoding")), lit ":",
    .star (.chars space), .leaving .writeValue (.entering .startValue (nocase "chunked"))])
    (.finishing .transChunked crlf)

def messageHeader : Rule := .alt transferEncodingChunked (.alt connClose (.alt contentLength fields))

def response : Rule := .cat [statusLine, .star messageHeader, crlf]

def chunkExtension : Rule :=
  .star (.cat [lit ";", .leaving .startValue (.leaving .writeField (.entering .startField (.plus (.chars token)))),
    .leaving .writeValue (.opt (.seq (lit "=") (.entering .startValue (.plus (.chars token)))))])

def chunkSize : Rule := .plus (.chars xdigit)

def chunkedHeader : Rule :=
  .entryGuarded 2 (.seq (.leaving .chunkSize (.entering .mark chunkSize)) chunkExtension) crlf

/-- `main` without its `@done`. -/
def main : Rule := .alt response chunkedHeader

theorem main_running : ∀ a ∈ main.table, (ResponseAction.op a).isStop = false := by decide

def httpclientParser : ResponseMachine Config := machine main .done rfl main_running

section SizeLine

variable {c : UInt8} {ds : List UInt8}

/-- A plain chunk-size line without its line end. -/
structure Digits (ds : List UInt8) : Prop where
  nonempty : ds ≠ []
  hex : ∀ c ∈ ds, xdigit c = true

def sizeTrace (ds : List UInt8) : List (List Nat) := [21] :: silent ds.tail ++ [[22], []]

theorem main_stamp : main.stamp 0 = .alt (response.stamp 0) (chunkedHeader.stamp 21) := rfl

theorem chunkedHeader_stamp : chunkedHeader.stamp 21 =
    .entryGuarded 2 (.seq (.leaving 22 (.entering 21 (.plus (.chars xdigit)))) (chunkExtension.stamp 23))
      (crlf.stamp 28) := rfl

theorem xdigit_visible (h : xdigit c = true) : c ≠ 72 ∧ c ≠ 59 ∧ c ≠ 13 ∧ c ≠ 10 := by
  refine ⟨?_, ?_, ?_, ?_⟩ <;>
  · rintro rfl
    exact absurd h (by decide)

theorem moves_response (h : c ≠ 72) : moves (response.stamp 0) c = [] := by
  have hb : bytes "HTTP/" = [72, 84, 84, 80, 47] := by decide
  simp [response, statusLine, httpVersion, Exp.entryGuarded, Exp.cat, lit, hb, Exp.text, Exp.byte, Exp.stamp, moves,
    out, h]

theorem moves_crlf (hr : c ≠ 13) (hn : c ≠ 10) : moves (crlf.stamp 28) c = [] := by
  have hb : bytes "\r\n" = [13, 10] := by decide
  have hb' : bytes "\n" = [10] := by decide
  simp [crlf, lit, hb, hb', Exp.text, Exp.byte, Exp.stamp, moves, out, hr, hn]

theorem moves_chunkExtension (h : c ≠ 59) : moves (chunkExtension.stamp 23) c = [] := by
  have hb : bytes ";" = [59] := by decide
  refine moves_star_eq_nil ?_
  simp [Exp.cat, lit, hb, Exp.text, Exp.byte, Exp.stamp, moves, out, h]

theorem scans_crlf : Scans (fun _ => False) (crlf.stamp 28) [13, 10] [[], []] [] fun _ => True := by
  have hb : bytes "\r\n" = [13, 10] := by decide
  have hs : Scans (fun _ => False) ((lit "\r\n").stamp 28) [13, 10] [[], []] [] fun _ => True := by
    rw [lit, hb, Exp.stamp_text]
    exact Scans.text (w := [13, 10]) (by simp)
  exact hs.alt_left (by decide) fun h => by cases h

theorem scans_chunkSize (h : Digits ds) :
    Scans (xdigit · = true) (.leaving 22 (.entering 21 (.plus (.chars xdigit)))) ds ([21] :: silent ds.tail) [22]
      fun c => xdigit c = false := by
  obtain ⟨d, ds, rfl⟩ := List.exists_cons_of_ne_nil h.nonempty
  obtain ⟨hd, hds⟩ := List.forall_mem_cons.mp h.hex
  have hfirst : Scans (fun _ => False) (.chars xdigit) [d] [[]] [] fun _ => True := Scans.chars hd
  have hs := hfirst.seq_quiet (Scans.star_chars hds fun _ h => h) (fun _ _ => trivial) (fun _ _ => trivial)
    (fun _ h => h.elim) (fun _ _ h => h.elim) fun _ h => h
  exact (hs.entering 21).leaving 22

theorem scans_sizeLine (h : Digits ds) :
    Scans (fun _ => False) (main.stamp 0) (ds ++ [13, 10]) (sizeTrace ds) [] fun _ => True := by
  have hext : out (chunkExtension.stamp 23) = some [] := rfl
  have hsize := (scans_chunkSize h).seq_nil (G := fun c => xdigit c = false ∧ c ≠ 59) hext
    (fun c hc => moves_chunkExtension (xdigit_visible hc).2.1) fun c hc => ⟨hc.1, moves_chunkExtension hc.2⟩
  have hplain : Plain (.seq (.leaving 22 (.entering 21 (.plus (.chars xdigit)))) (chunkExtension.stamp 23)) :=
    ⟨⟨trivial, trivial⟩, plain_stamp (by decide) 23⟩
  have hs := Scans.guarded 2 hplain (plain_stamp (by decide) 28) hsize scans_crlf
    (fun c hc => moves_crlf (xdigit_visible hc).2.2.1 (xdigit_visible hc).2.2.2) rfl
  obtain ⟨d, ds, rfl⟩ := List.exists_cons_of_ne_nil h.nonempty
  rw [main_stamp, chunkedHeader_stamp]
  have hd := (xdigit_visible (h.hex d (List.mem_cons_self ..))).1
  exact Scans.alt_right (w := ds ++ [13, 10]) (moves_response hd) (fun h => by cases h) hs

def hexValue (ds : List UInt8) : Nat := ds.foldl (fun n b => n * 16 + Http.digit b) 0

theorem isDigit_of_xdigit (h : xdigit c = true) : isDigit 16 c = true := by
  have hall : ∀ n < 256, xdigit (UInt8.ofNat n) = true → isDigit 16 (UInt8.ofNat n) = true := by decide +kernel
  simpa using hall c.toNat c.toNat_lt (by simpa using h)

theorem Digits.isNumber (h : Digits ds) (rest : List UInt8) : IsNumber 16 (ds ++ 13 :: rest) ds.length := by
  refine ⟨List.length_pos_of_ne_nil h.nonempty, fun b hb => ?_, 13, by simp, by decide, by decide⟩
  rw [List.take_left] at hb
  exact isDigit_of_xdigit (h.hex b hb)

theorem Digits.strtol_eq (h : Digits ds) (hv : hexValue ds < 2 ^ 31) (rest : List UInt8) :
    truncate (strtol 16 (ds ++ 13 :: rest)) = hexValue ds := by
  rw [strtol_number le_rfl (h.isNumber rest), List.take_left]
  change truncate (min (2 ^ 63 - 1) (hexValue ds : Int)) = hexValue ds
  rw [min_eq_right (by omega), truncate, Int.bmod_def]
  omega

theorem perform_sizeTrace (h : Digits ds) (data : List UInt8) :
    (perform ResponseAction.op data 0 ((sizeTrace ds).map (actions main.table))
      ⟨fun _ => 0, fun _ => 0⟩).2 = [⟨.chunkSize, [⟨data, ds.length, ds.length⟩]⟩] := by
  obtain ⟨n, hn⟩ := Nat.exists_eq_succ_of_ne_zero (List.length_pos_of_ne_nil h.nonempty).ne'
  have hnone : actions main.table [] = [] := by decide
  have hmark : actions main.table [21] = [.mark] := by decide
  have hsize : actions main.table [22] = [.chunkSize] := by decide
  have htrace : (sizeTrace ds).map (actions main.table) =
      [[ResponseAction.mark]] ++ List.replicate n [] ++ [[.chunkSize], []] := by
    simp [sizeTrace, silent, hn, hnone, hmark, hsize]
  rw [htrace, perform_append, perform_append, perform_silent]
  simp [perform, runOps, ResponseAction.op, Op.isStop, Op.regs, Op.events, Scanner.token, hn, Nat.add_comm]

theorem freshScan_sizeLine (h : Digits ds) (rest : List UInt8) :
    ∃ cs g, freshScan httpclientParser (ds ++ 13 :: 10 :: rest) =
      ⟨some cs, true, g, [⟨.chunkSize, [⟨ds ++ 13 :: 10 :: rest, ds.length, ds.length⟩]⟩], ds.length + 2⟩ := by
  obtain ⟨T, hrun, hfinal, -⟩ := scans_sizeLine h
  have hdone : (ResponseAction.op .done).isStop = true := rfl
  obtain ⟨cs, -, hscan⟩ := scan_complete hdone main_running (ds ++ 13 :: 10 :: rest) (fun _ h => h) hrun
    (S := [main.stamp 0]) (by simp) hfinal (by simp) ⟨fun _ => 0, fun _ => 0⟩ 0 rest
  rw [perform_sizeTrace h, List.append_assoc, Nat.zero_add, List.length_append] at hscan
  exact ⟨cs, _, hscan⟩

def sized (s : ResponseState) (n : Nat) : ResponseState :=
  { s with chunked := true, contentLen := n, chunksDone := n = 0 }

theorem line_sizeLine (h : Digits ds) (hv : hexValue ds < 2 ^ 31) (rest : List UInt8) {s : ResponseState}
    (h0 : s.error = 0) :
    Line httpclientParser (ds ++ 13 :: 10 :: rest) s (sized s (hexValue ds)) ∧
      (freshScan httpclientParser (ds ++ 13 :: 10 :: rest)).pos = ds.length + 2 ∧
      ∀ e ∈ (freshScan httpclientParser (ds ++ 13 :: 10 :: rest)).events, DelimitsResponse e := by
  obtain ⟨cs, g, hscan⟩ := freshScan_sizeLine h rest
  have hnumber := h.isNumber (10 :: rest)
  have hstate : onResponse (httpclientParserInit httpclientParser s).state
      ⟨.chunkSize, [⟨ds ++ 13 :: 10 :: rest, ds.length, ds.length⟩]⟩ = some (sized s (hexValue ds)) := by
    simp only [onResponse, Http.chunkSize, h.strtol_eq hv, httpclientParserInit, sized, Int.natCast_nonpos_iff]
  refine ⟨⟨by rw [hscan], ⟨cs, by rw [hscan]⟩, ?_, h0⟩, by rw [hscan], ?_⟩
  · rw [hscan, List.foldlM_cons, hstate]
    rfl
  · rw [hscan, List.forall_mem_singleton]
    refine ⟨by simp, by simp, fun _ => ?_⟩
    rw [List.forall_mem_singleton]
    simpa using hnumber

end SizeLine

end Windgent.Http.HttpClient
