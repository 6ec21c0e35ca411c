import Mathlib.Data.List.Sort
import TweakTool.App.Client
import TweakTool.Cli.Arrays
import TweakTool.Cli.Tokens
import TweakTool.Lib.Lines

/-! # Scripts of the command line client

`main.c` of the command line client: `load` runs the lines of a file as commands, and `save` writes a
file that sets each item to the value it has.

The commands that print, that ask at the terminal, that wait for the server or go to other files are
given by what they do to the session (`Outside`). -/

namespace TweakTool.Cli

open TweakTool.Lib TweakTool.Common TweakTool.App

structure Session where
  client : Client
  selected : TweakId -- `s_tweak_id`
  exit : Bool -- `s_exit`

/-- The handlers of `command_handler_pairs`. -/
inductive Command where
  | wait | list | details | select | get | set | edit | load | save | help | exit
  deriving DecidableEq

/-- What a handler does to the session, given its tokens; `none` if the process ends. -/
abbrev Outside := Command → List Text → Session → Option Session

/-- A command that was run: a `set` that printed `Ok`, or any other one. -/
inductive Executed where
  | set (id : TweakId)
  | other
  deriving DecidableEq

def commandHandlerPairs : List (Text × Command) :=
  [(text "wait", .wait), (text "list", .list), (text "details", .details), (text "select", .select),
    (text "get", .get), (text "set", .set), (text "edit", .edit), (text "load", .load),
    (text "save", .save), (text "help", .help), (text "?", .help), (text "exit", .exit)]

/-! ## Commands -/

/-- With `explicit_uri`. -/
def getTweakId (s : Session) (uri : Text) : TweakId × Bool :=
  if uri.head? ≠ some (ascii '[') then (s.client.modelImpl.tweakAppFindId uri, true)
  else (s.selected, false)

section Code

variable (env : Environment) (outside : Outside)

def executeSetCmd (s : Session) : (tokens : List Text) → Option (Session × Executed)
  | [] => some (s, .other)
  | uri :: value =>
    let (id, explicitUri) := getTweakId s uri
    if id = tweakInvalidId then some (s, .other)
    else
      let valueStr := mergeTokens (if explicitUri then value else uri :: value) (text " ")
      match s.client.find? id with
      | none => some (s, .other)
      | some snapshot =>
        if snapshot.currentValue.type = .null then some (s, .other)
        else
          match metadataAwareVariantFromString env valueStr snapshot.currentValue.type
            (tweakVariantGetItemCount snapshot.currentValue) snapshot.meta with
          | none => none
          | some (.fail, _) => some (s, .other)
          | some (result, value) =>
            -- the warning shows the value
            if result = .truncated ∧ metadataAwareVariantToString env value snapshot.meta = none then
              none
            else
              let (errorCode, client) := s.client.replaceCurrentValue id value
              some ({ s with client := client },
                if errorCode = .success then .set id else .other)

def executeSelectCmd (s : Session) : (tokens : List Text) → Session
  | [] => { s with selected := tweakInvalidId }
  | uri :: _ =>
    let id := s.client.modelImpl.tweakAppFindId uri
    if id ≠ tweakInvalidId then { s with selected := id } else s

def executeCmd (s : Session) (tokens : List Text) : Command → Option (Session × Executed)
  | .set => executeSetCmd env s tokens
  | .select => some (executeSelectCmd s tokens, .other)
  | .help => some (s, .other)
  | .exit => some ({ s with exit := true }, .other)
  | command => (outside command tokens s).map (·, .other)

/-- The session after a line, and the command if it has one. -/
def executeLine (s : Session) (line : Text) : Option (Session × Option Executed) :=
  match tokenize backslash separators (line.takeWhile (· ≠ ascii '#')) with
  | [] => some (s, none)
  | name :: tokens =>
    match commandHandlerPairs.lookup name with
    | none => some (s, some .other)
    | some command => (executeCmd env outside s tokens command).map fun (s, e) => (s, some e)

/-- The loop of `run_script` over the lines, with the commands in the order in which they were run. -/
def runLines (s : Session) : List Text → Option (Session × List Executed)
  | [] => some (s, [])
  | line :: lines =>
    match executeLine env outside s line with
    | none => none
    | some (s, executed) =>
      if s.exit then some (s, executed.toList)
      else (runLines s lines).map fun (s, log) => (s, executed.toList ++ log)

def runScript (s : Session) (file : Text) : Option (Session × List Executed) :=
  runLines env outside s (lines (ascii '\n') file)

/-! ## Saving -/

/-- `tweak_app_cl_create_sorted_tweak_uris_list_regex` without a filter; `strcmp` compares bytes. -/
def createSortedTweakUrisList (c : Client) : List Text :=
  (c.modelImpl.model.entries.map fun entry => entry.2.uri).insertionSort (· ≤ ·)

def itemText (uri description «meta» defaultValueStr currentValueStr : Text) : Text :=
  text "\n" ++
  (text "# Item uri: " ++ uri ++ text "\n") ++
  (text "# Description : " ++ description ++ text "\n") ++
  (text "# Meta : " ++ «meta» ++ text "\n") ++
  (text "# Default value : " ++ defaultValueStr ++ text "\n") ++
  text "\n" ++
  (text "set " ++ uri ++ text " " ++ currentValueStr ++ text "\n")

/-- The body of the loop of `generate_script`. -/
def generateItem (c : Client) (uri : Text) : Option Text :=
  let id := c.modelImpl.tweakAppFindId uri
  if id = tweakInvalidId then some []
  else
    match c.find? id with
    | none => some []
    | some snapshot => do
      let currentValueStr ← metadataAwareVariantToString env snapshot.currentValue snapshot.meta
      let defaultValueStr ← metadataAwareVariantToString env snapshot.defaultValue snapshot.meta
      return itemText snapshot.uri snapshot.description snapshot.meta defaultValueStr currentValueStr

def generateScript (c : Client) : Option Text :=
  ((createSortedTweakUrisList c).mapM (generateItem env c)).map List.flatten

end Code

end TweakTool.Cli
