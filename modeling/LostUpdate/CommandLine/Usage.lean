namespace LostUpdate

namespace Usage

def program : String := "awaitguard"

private def lines (l : List String) : String := String.join (l.map (· ++ "\n"))

def usage : String := lines [
  "usage: awaitguard [-h] [--output OUTPUT] [--json JSON] [--ci-mode]",
  "                  [--max-violations MAX_VIOLATIONS] [--shared-name NAME]",
  "                  [--debug] [--quiet] [--version]",
  "                  [files ...]"]

def help : String := usage ++ lines [
  "",
  "AwaitGuard: static analyzer for non-atomic updates in async Python",
  "",
  "positional arguments:",
  "  files                 Python files or directories to analyze",
  "",
  "options:",
  "  -h, --help            show this help message and exit",
  "  --output OUTPUT, -o OUTPUT",
  "                        Output file for the report",
  "  --json JSON           Output JSON report to file",
  "  --ci-mode             Run in CI mode with non-zero exit on issues",
  "  --max-violations MAX_VIOLATIONS",
  "                        Maximum allowed violations (CI mode)",
  "  --shared-name NAME    Treat objects bound to NAME (e.g. self) as shared;",
  "                        repeatable",
  "  --debug               Enable debug output and stack traces",
  "  --quiet, -q           Suppress non-essential output",
  "  --version             show program's version number and exit",
  "",
  "Examples:",
  "  awaitguard service.py",
  "  awaitguard --output report.txt src/",
  "  awaitguard --json results.json --ci-mode src/",
  "  awaitguard --shared-name self handlers.py",
  "",
  "Exit Codes:",
  "  0: Success",
  "  1: More violations than --max-violations (CI mode)",
  "  3: Analysis error (CI mode)"]

end Usage

end LostUpdate
