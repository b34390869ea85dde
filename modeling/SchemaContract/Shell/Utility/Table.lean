import SchemaContract.Shell.Utility.Files
import SchemaContract.Shell.Utility.Lines
import SchemaContract.Shell.Utility.Search

/-!
The utilities by their names, and where they lie.
-/
namespace SchemaContract.Shell.Utility

/-- Writes words as they are, unless escapes are asked for. -/
def echo : Action := fun words => do
  let options := words.takeWhile fun word =>
    match word with
    | '-' :: c :: cs => (c :: cs).all "neE".toList.contains
    | _ => false
  let letters := options.flatten
  let escaping := (letters.filter fun c => c == 'e' || c == 'E').getLast? == some 'e'
  let words := words.drop options.length
  let (text, ends) := if escaping then echoed words else (Chars.join [' '] words, false)
  Builtin.print (text ++ (if letters.contains 'n' || ends then [] else ['\n']))

def action? : String → Option Action
  | "cat" => some cat
  | "head" => some head
  | "tail" => some tail
  | "wc" => some wc
  | "sort" => some sort
  | "uniq" => some uniq
  | "cut" => some cut
  | "tr" => some tr
  | "tee" => some tee
  | "rev" => some rev
  | "tac" => some tac
  | "seq" => some seq
  | "basename" => some basename
  | "dirname" => some dirname
  | "ls" => some ls
  | "cp" => some cp
  | "mv" => some mv
  | "rm" => some rm
  | "mkdir" => some mkdir
  | "rmdir" => some rmdir
  | "touch" => some touch
  | "grep" => some (grep "")
  | "egrep" => some (grep "E")
  | "fgrep" => some (grep "F")
  | "sed" => some sed
  | "echo" => some echo
  | "sleep" | "true" | "sync" | "chmod" => some fun _ => return 0
  | "false" => some fun _ => return 1
  | "printf" => some Builtin.printFormatted
  | "pwd" => some Builtin.pwd
  | "test" => some (Builtin.test false)
  | "[" => some (Builtin.test true)
  | _ => none

def directories : List Chars := ["/bin/".toList, "/usr/bin/".toList]

def nameIn? (path : Chars) : Option Chars :=
  (directories.find? fun directory => directory.isPrefixOf path).map fun directory =>
    path.drop directory.length

end SchemaContract.Shell.Utility
